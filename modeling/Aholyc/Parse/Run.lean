import Aholyc.Eval
import Aholyc.Parse.Lower

/-!
# Running a lowered tree

`settle` answers the calls of an evaluation; an answer that does not come back ends
it. The temporaries of the parser are cells of their own (`withTemps`): nothing takes
their address, so only the nodes that name them reach them. Expressions that do not
name them run as they do without them.
-/

namespace Aholyc.Parse

open Aholyc.Lib Aholyc.Eval

abbrev Answers (W : Type) := Callee → List Word → W → Option (Word × W)

variable {W A B : Type}

def settle (answers : Answers W) : Comp Callee Word W A → Option (A × W)
  | .done a w => some (a, w)
  | .stuck _ => none
  | .call f args w k =>
      match answers f args w with
      | some (v, w) => settle answers (k v w)
      | none => none

@[simp] theorem settle_done (answers : Answers W) (a : A) (w : W) :
    settle answers (.done a w) = some (a, w) := rfl

@[simp] theorem settle_stuck (answers : Answers W) (w : W) :
    settle answers (.stuck w : Comp Callee Word W A) = none := rfl

theorem settle_bind (answers : Answers W) (c : Comp Callee Word W A)
    (k : A → W → Comp Callee Word W B) :
    settle answers (c.bind k) = (settle answers c).bind fun s => settle answers (k s.1 s.2) := by
  induction c with
  | done a w => rfl
  | stuck w => rfl
  | call f args w next ih =>
    rw [Comp.bind_call, settle, settle]
    cases answers f args w with
    | none => rfl
    | some s => exact ih s.1 s.2

@[simp] theorem settle_ofOption (answers : Answers W) (w : W) (o : Option A) :
    settle answers (ofOption w o) = o.map fun a => (a, w) := by
  cases o with
  | none => rfl
  | some a => rfl

def run (T : Target W) (answers : Answers W) (e : Expr) (w : W) : Option (Word × W) :=
  settle answers (val T e w)

def runAddr (T : Target W) (answers : Answers W) (e : Expr) (w : W) : Option (Word × W) :=
  settle answers (addr T e w)

/-! ## Temporaries -/

abbrev Temps := Nat → Word

def External.withTemps (t : Temps) : External W → External (W × Temps)
  | .ret v w => .ret v (w, t)
  | .raise w => .raise (w, t)
  | .exit w => .exit (w, t)

/-- The target with cells for the temporaries in `tmps`; a cell has the full width. -/
def withTemps (T : Target W) (tmps : List Nat) : Target (W × Temps) where
  leftFirst := T.leftFirst
  strAddr := T.strAddr
  funcAddr := T.funcAddr
  addrOf v m := T.addrOf v m.1
  load place m :=
    match place with
    | .obj v => if v.uid ∈ tmps then some (m.2 v.uid) else T.load place m.1
    | .cell .. => T.load place m.1
  store place x m :=
    let stored := (T.store place x m.1).map fun s => (s.1, s.2, m.2)
    match place with
    | .obj v =>
        if v.uid ∈ tmps then some (x, m.1, fun uid => if uid = v.uid then x else m.2 uid)
        else stored
    | .cell .. => stored
  bin := T.bin
  un := T.un
  cast := T.cast
  truth := T.truth
  enter params locals args m := (T.enter params locals args m.1, m.2)
  leave m := (T.leave m.1, m.2)
  moved m m' := T.moved m.1 m'.1 || tmps.any fun uid => m.2 uid != m'.2 uid
  exceptCh m := T.exceptCh m.1
  catchExcept m := T.catchExcept m.1
  setExcept ch m := (T.setExcept ch m.1, m.2)
  setExcept_same m none := by rw [T.setExcept_same m.1 none]
  asm block m := (((T.asm block m.1).1, m.2), (T.asm block m.1).2)
  resolve := T.resolve
  ext func args m := External.withTemps m.2 (T.ext func args m.1)
  foreign a args m := External.withTemps m.2 (T.foreign a args m.1)

def beside (answers : Answers W) : Answers (W × Temps) := fun f args m =>
  (answers f args m.1).map fun s => (s.1, s.2, m.2)

def Avoids (tmps : List Nat) : Expr → Prop
  | .var v => v.uid ∉ tmps
  | .bin _ _ lhs rhs => Avoids tmps lhs ∧ Avoids tmps rhs
  | .un _ _ lhs => Avoids tmps lhs
  | .assign _ lhs rhs => Avoids tmps lhs ∧ Avoids tmps rhs
  | .member _ _ lhs => Avoids tmps lhs
  | .deref _ lhs => Avoids tmps lhs
  | .addr _ lhs => Avoids tmps lhs
  | .call _ _ args _ => Avoids tmps args
  | .callInd _ lhs args _ => Avoids tmps lhs ∧ Avoids tmps args
  | .cast _ _ lhs => Avoids tmps lhs
  | .arg a next => Avoids tmps a ∧ Avoids tmps next
  | .num _ | .fnum _ | .str _ | .funcname .. | .nop | .noArg => True

def aside (t : Temps) (result : Option (A × W)) : Option (A × W × Temps) :=
  result.map fun s => (s.1, s.2, t)

@[simp] theorem aside_some (t : Temps) (a : A) (w : W) :
    aside t (some (a, w)) = some (a, w, t) := rfl

@[simp] theorem aside_none (t : Temps) : aside t (none : Option (A × W)) = none := rfl

/-- The computation with temporaries ends as the one without, beside temporaries that did
not change. -/
def Lifts (answers : Answers W) (t : Temps) (with' : Comp Callee Word (W × Temps) A)
    (without : Comp Callee Word W A) : Prop :=
  settle (beside answers) with' = aside t (settle answers without)

section

variable {T : Target W} {answers : Answers W} {tmps : List Nat} {t : Temps}

theorem Lifts.bind {c' : Comp Callee Word (W × Temps) A} {c : Comp Callee Word W A}
    {k' : A → W × Temps → Comp Callee Word (W × Temps) B} {k : A → W → Comp Callee Word W B}
    (first : Lifts answers t c' c) (rest : ∀ a w, Lifts answers t (k' a (w, t)) (k a w)) :
    Lifts answers t (c'.bind k') (c.bind k) := by
  rw [Lifts, settle_bind, settle_bind, first]
  cases settle answers c with
  | none => rfl
  | some s => exact rest s.1 s.2

theorem Lifts.both {l' : W × Temps → Comp Callee Word (W × Temps) A} {l : W → Comp Callee Word W A}
    {r' : W × Temps → Comp Callee Word (W × Temps) B} {r : W → Comp Callee Word W B}
    (leftFirst : Bool) (left : ∀ w, Lifts answers t (l' (w, t)) (l w))
    (right : ∀ w, Lifts answers t (r' (w, t)) (r w)) (w : W) :
    Lifts answers t (Comp.both leftFirst l' r' (w, t)) (Comp.both leftFirst l r w) := by
  unfold Comp.both
  split
  · exact (left w).bind fun a w => (right w).bind fun b w => rfl
  · exact (right w).bind fun b w => (left w).bind fun a w => rfl

theorem lifts_done (a : A) (w : W) : Lifts answers t (.done a (w, t)) (.done a w) := rfl

theorem lifts_ofOption (o : Option A) (w : W) :
    Lifts answers t (ofOption (w, t) o) (ofOption w o) := by
  cases o with
  | none => rfl
  | some a => rfl

theorem lifts_call (f : Callee) (vs : List Word) (w : W) :
    Lifts answers t (.call f vs (w, t) .done) (.call f vs w .done) := by
  rw [Lifts, settle, settle, beside]
  cases answers f vs w with
  | none => rfl
  | some s => rfl

theorem lifts_store (lhs : Place) (x : Word) (w : W) (other : ∀ v, lhs = .obj v → v.uid ∉ tmps) :
    (withTemps T tmps).store lhs x (w, t) = (T.store lhs x w).map fun s => (s.1, s.2, t) := by
  cases lhs with
  | obj v => exact if_neg (other v rfl)
  | cell ty a => rfl

/-- An expression that does not name the temporaries runs without them. -/
theorem avoids_lifts (e : Expr) (avoids : Avoids tmps e) :
    (∀ w, Lifts answers t (val (withTemps T tmps) e (w, t)) (val T e w)) ∧
    (∀ w, Lifts answers t (addr (withTemps T tmps) e (w, t)) (addr T e w)) ∧
    ∀ w, Lifts answers t (args (withTemps T tmps) e (w, t)) (args T e w) := by
  induction e with
  | num _ => exact ⟨fun _ => rfl, fun _ => rfl, fun _ => rfl⟩
  | fnum _ => exact ⟨fun _ => rfl, fun _ => rfl, fun _ => rfl⟩
  | str _ => exact ⟨fun _ => rfl, fun _ => rfl, fun _ => rfl⟩
  | funcname _ _ => exact ⟨fun _ => rfl, fun _ => rfl, fun _ => rfl⟩
  | nop => exact ⟨fun _ => rfl, fun _ => rfl, fun _ => rfl⟩
  | noArg => exact ⟨fun _ => rfl, fun _ => rfl, fun _ => rfl⟩
  | var v =>
    refine ⟨fun w => ?_, fun _ => rfl, fun _ => rfl⟩
    have other : v.uid ∉ tmps := avoids
    simp only [val]
    split
    · rfl
    · simp only [withTemps, if_neg other]
      exact lifts_ofOption _ w
  | bin kind ty lhs rhs ihl ihr =>
    obtain ⟨left, right⟩ := avoids
    refine ⟨fun w => ?_, fun _ => rfl, fun _ => rfl⟩
    have truths (w : W) : Lifts answers t
        ((val (withTemps T tmps) rhs (w, t)).bind fun y m =>
          .done (if T.truth rhs.ty y then (1 : Word) else 0) m)
        ((val T rhs w).bind fun y m => .done (if T.truth rhs.ty y then 1 else 0) m) :=
      ((ihr right).1 w).bind fun y w => lifts_done _ w
    cases kind with
    | comma => exact ((ihl left).1 w).bind fun _ w => (ihr right).1 w
    | logand =>
      apply Lifts.bind ((ihl left).1 w)
      intro x w
      show Lifts answers t (if T.truth lhs.ty x then _ else _) (if T.truth lhs.ty x then _ else _)
      split
      · exact truths w
      · rfl
    | logor =>
      apply Lifts.bind ((ihl left).1 w)
      intro x w
      show Lifts answers t (if T.truth lhs.ty x then _ else _) (if T.truth lhs.ty x then _ else _)
      split
      · rfl
      · exact truths w
    | _ =>
      exact (Lifts.both _ (ihl left).1 (ihr right).1 w).bind fun xy w => lifts_ofOption _ w
  | un kind ty lhs ih =>
    refine ⟨fun w => ?_, fun _ => rfl, fun _ => rfl⟩
    exact ((ih avoids).1 w).bind fun x w => lifts_ofOption _ w
  | assign ty lhs rhs ihl ihr =>
    obtain ⟨left, right⟩ := avoids
    refine ⟨fun w => ?_, fun _ => rfl, fun _ => rfl⟩
    cases lhs with
    | var v =>
      apply Lifts.bind ((ihr right).1 w)
      intro x w
      have other : ∀ v', Place.obj v = .obj v' → v'.uid ∉ tmps := by
        intro v' same
        cases same
        exact left
      rw [lifts_store (.obj v) x w other]
      cases T.store (.obj v) x w with
      | none => rfl
      | some s => rfl
    | _ =>
      simp only [val]
      apply Lifts.bind (Lifts.both _ (ihl left).2.1 (ihr right).1 w)
      intro ax w
      rw [lifts_store (.cell _ ax.1) ax.2 w fun v isObj => by cases isObj]
      cases T.store (.cell _ ax.1) ax.2 w with
      | none => rfl
      | some s => rfl
  | member ty offset lhs ih =>
    refine ⟨fun w => ?_, fun w => ?_, fun _ => rfl⟩
    · apply Lifts.bind ((ih avoids).2.1 w)
      intro a w
      show Lifts answers t (if isAgg ty then _ else _) (if isAgg ty then _ else _)
      split
      · rfl
      · exact lifts_ofOption _ w
    · exact ((ih avoids).2.1 w).bind fun a w => lifts_done _ w
  | deref ty lhs ih =>
    refine ⟨fun w => ?_, fun w => (ih avoids).1 w, fun _ => rfl⟩
    apply Lifts.bind ((ih avoids).1 w)
    intro a w
    show Lifts answers t (if isAgg ty then _ else _) (if isAgg ty then _ else _)
    split
    · rfl
    · exact lifts_ofOption _ w
  | addr ty lhs ih => exact ⟨fun w => (ih avoids).2.1 w, fun _ => rfl, fun _ => rfl⟩
  | call ty func as nfixed ih =>
    refine ⟨fun w => ?_, fun _ => rfl, fun _ => rfl⟩
    exact ((ih avoids).2.2 w).bind fun vs w => lifts_call _ vs w
  | callInd ty lhs as nfixed ihl iha =>
    obtain ⟨left, right⟩ := avoids
    refine ⟨fun w => ?_, fun _ => rfl, fun _ => rfl⟩
    exact (Lifts.both _ (ihl left).1 (iha right).2.2 w).bind fun pvs w => lifts_call _ pvs.2 w
  | cast ty bitCast lhs ih =>
    refine ⟨fun w => ?_, fun _ => rfl, fun _ => rfl⟩
    exact ((ih avoids).1 w).bind fun x w => lifts_done _ w
  | arg a next iha ihn =>
    obtain ⟨left, right⟩ := avoids
    refine ⟨fun _ => rfl, fun _ => rfl, fun w => ?_⟩
    exact (Lifts.both _ (iha left).1 (ihn right).2.2 w).bind fun xs w => lifts_done _ w

end

/-! ## The nodes, run -/

section

variable (T : Target W) (answers : Answers W)

theorem settle_both (answers : Answers W) (leftFirst : Bool) (left : W → Comp Callee Word W A)
    (right : W → Comp Callee Word W B) (w : W) :
    settle answers (Comp.both leftFirst left right w) =
      if leftFirst then
        (settle answers (left w)).bind fun a =>
          (settle answers (right a.2)).map fun b => ((a.1, b.1), b.2)
      else
        (settle answers (right w)).bind fun b =>
          (settle answers (left b.2)).map fun a => ((a.1, b.1), a.2) := by
  unfold Comp.both
  split
  · simp only [settle_bind, settle_done, Option.map_eq_bind]
    rfl
  · simp only [settle_bind, settle_done, Option.map_eq_bind]
    rfl

theorem run_bin (kind : BinKind) (strict : kind ≠ .comma ∧ kind ≠ .logand ∧ kind ≠ .logor) (ty : Ty)
    (lhs rhs : Expr) (w : W) :
    run T answers (.bin kind ty lhs rhs) w =
      if T.leftFirst (.bin kind ty lhs rhs) then
        (run T answers lhs w).bind fun left => (run T answers rhs left.2).bind fun right =>
          (T.bin kind ty lhs.ty rhs.ty left.1 right.1).map fun z => (z, right.2)
      else
        (run T answers rhs w).bind fun right => (run T answers lhs right.2).bind fun left =>
          (T.bin kind ty lhs.ty rhs.ty left.1 right.1).map fun z => (z, left.2) := by
  obtain ⟨noComma, noAnd, noOr⟩ := strict
  have node : val T (.bin kind ty lhs rhs) w =
      (Comp.both (T.leftFirst (.bin kind ty lhs rhs)) (val T lhs) (val T rhs) w).bind
        fun xy m => ofOption m (T.bin kind ty lhs.ty rhs.ty xy.1 xy.2) := by
    cases kind with
    | comma => exact absurd rfl noComma
    | logand => exact absurd rfl noAnd
    | logor => exact absurd rfl noOr
    | _ => rfl
  rw [run, node, settle_bind, settle_both]
  split
  · simp only [settle_ofOption, Option.bind_assoc, Option.bind_map, Function.comp_def, run]
  · simp only [settle_ofOption, Option.bind_assoc, Option.bind_map, Function.comp_def, run]

theorem run_comma (ty : Ty) (lhs rhs : Expr) (w : W) :
    run T answers (.bin .comma ty lhs rhs) w =
      (run T answers lhs w).bind fun left => run T answers rhs left.2 := by
  rw [run, val, settle_bind]
  rfl

theorem run_logand (ty : Ty) (lhs rhs : Expr) (w : W) :
    run T answers (.bin .logand ty lhs rhs) w = (run T answers lhs w).bind fun left =>
      if T.truth lhs.ty left.1 then
        (run T answers rhs left.2).map fun right =>
          (if T.truth rhs.ty right.1 then 1 else 0, right.2)
      else some (0, left.2) := by
  rw [run, val, settle_bind]
  congr 1
  funext left
  show settle answers (if T.truth lhs.ty left.1 then _ else _) = _
  split
  · rw [settle_bind, Option.map_eq_bind]
    rfl
  · rfl

theorem run_cast (ty : Ty) (bitCast : Bool) (lhs : Expr) (w : W) :
    run T answers (.cast ty bitCast lhs) w =
      (run T answers lhs w).map fun s => (T.cast ty bitCast lhs.ty s.1, s.2) := by
  rw [run, val, settle_bind, Option.map_eq_bind]
  rfl

end

def asF64 (T : Target W) (ty : Ty) (x : Word) : Word :=
  if ty.isF64 then x else T.cast .f64 false ty x

theorem toF64_ty (n : Expr) : (toF64 n).ty = .f64 := by
  unfold toF64
  split
  next isF64 =>
    cases ty : n.ty with
    | f64 => rfl
    | _ =>
      rw [ty] at isF64
      cases isF64
  next => rfl

theorem run_toF64 (T : Target W) (answers : Answers W) (n : Expr) (w : W) :
    run T answers (toF64 n) w = (run T answers n w).map fun s => (asF64 T n.ty s.1, s.2) := by
  unfold toF64 asF64
  split
  · exact Option.map_id'.symm
  · exact run_cast T answers .f64 false n w

def visible (result : Option (Word × W × Temps)) : Option (Word × W) :=
  result.map fun s => (s.1, s.2.1)

theorem visible_aside (t : Temps) (result : Option (Word × W)) :
    visible (aside t result) = result := by
  rw [visible, aside, Option.map_map]
  exact Option.map_id'

theorem visible_bind {A : Type} (result : Option A) (next : A → Option (Word × W × Temps)) :
    visible (result.bind next) = result.bind fun s => visible (next s) := by
  cases result with
  | none => rfl
  | some s => rfl

section

variable {T : Target W} {answers : Answers W} {tmps : List Nat}

variable {e : Expr} {v : Obj}

theorem run_avoids (avoids : Avoids tmps e) (w : W) (t : Temps) :
    run (withTemps T tmps) (beside answers) e (w, t) = aside t (run T answers e w) :=
  (avoids_lifts e avoids).1 w

theorem runAddr_avoids (avoids : Avoids tmps e) (w : W) (t : Temps) :
    runAddr (withTemps T tmps) (beside answers) e (w, t) = aside t (runAddr T answers e w) :=
  (avoids_lifts e avoids).2.1 w

theorem rvalize_ty (e : Expr) : isArray (rvalize e).ty = false := by
  unfold rvalize
  cases ty : e.ty with
  | array base len => rfl
  | _ => rw [ty]; rfl

theorem rvalize_scalar (notArray : isArray e.ty = false) : rvalize e = e := by
  unfold rvalize
  cases ty : e.ty with
  | array base len =>
    rw [ty] at notArray
    cases notArray
  | _ => rfl

theorem rvalize_avoids (avoids : Avoids tmps e) : Avoids tmps (rvalize e) := by
  unfold rvalize
  split
  · exact avoids
  · exact avoids

theorem valueType_decayed (ty : Ty) : isArray (valueType ty) = false := by
  cases ty with
  | int size isUnsigned =>
    cases isUnsigned with
    | true => rfl
    | false => rfl
  | _ => rfl

theorem storedAs_valueType (e : Expr) : storedAs (valueType e.ty) e = e := by
  unfold storedAs
  cases ty : e.ty with
  | int size isUnsigned =>
    cases isUnsigned with
    | true => rfl
    | false => rfl
  | _ => rfl

/-- A temporary made for an expression takes its value as it is. -/
theorem newAssign_temp (ty : v.ty = valueType e.ty) (decayed : isArray e.ty = false) :
    newAssign (.var v) e = some (.assign (valueType v.ty) (.var v) e) := by
  have isVar : isLvalue (.var v) = true := rfl
  have varTy : (Expr.var v).ty = v.ty := rfl
  have notArray : isArray v.ty = false := by
    rw [ty]
    exact valueType_decayed e.ty
  rw [newAssign, isVar, varTy, notArray, rvalize_scalar decayed, ty, storedAs_valueType]
  rfl

variable (T answers) in
theorem run_temp (isTemp : v.uid ∈ tmps) (scalar : isAgg v.ty = false) (m : W × Temps) :
    run (withTemps T tmps) (beside answers) (.var v) m = some (m.2 v.uid, m) := by
  simp only [run, val, scalar, Bool.false_eq_true, if_false, settle_ofOption]
  simp only [withTemps, if_pos isTemp, Option.map_some]

/-- A temporary takes the value of what is assigned to it. -/
theorem run_assignTemp (isTemp : v.uid ∈ tmps) (ty : Ty) (rhs : Expr) (m : W × Temps) :
    run (withTemps T tmps) (beside answers) (.assign ty (.var v) rhs) m =
      (run (withTemps T tmps) (beside answers) rhs m).map fun s =>
        (s.1, s.2.1, fun uid => if uid = v.uid then s.1 else s.2.2 uid) := by
  rw [run, val, settle_bind, run, Option.map_eq_bind]
  congr 1
  funext s
  simp only [withTemps, if_pos isTemp]
  rfl

end

end Aholyc.Parse
