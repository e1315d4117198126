import Aholyc.Parse.Run

/-!
# Chained comparisons

A chain of comparisons evaluates its operands in turn until a comparison fails. The
lowering of a chain does the same, but for the first two operands: `>` and `>=` are
`<` and `<=` with the sides exchanged, and the target takes the sides in its own order.
Behind the first comparison the left side is a temporary, and nothing shows.
-/

namespace Aholyc.Parse

open Aholyc.Lib Aholyc.Eval

variable {W : Type}

/-- What the language says of a target: integers widen to 64 bits when they are loaded,
and comparisons give one or zero. -/
structure Widened (T : Target W) : Prop where
  left : ∀ kind ty l r x y, T.bin kind ty (valueType l) r x y = T.bin kind ty l r x y
  right : ∀ kind ty l r x y, T.bin kind ty l (valueType r) x y = T.bin kind ty l r x y
  cast : ∀ to' bitCast l x, T.cast to' bitCast (valueType l) x = T.cast to' bitCast l x
  truth_zero : T.truth tyI64 0 = false
  truth_one : T.truth tyI64 1 = true
  compares : ∀ kind l r x y z, kind = .lt ∨ kind = .le → T.bin kind tyI64 l r x y = some z →
    z = 0 ∨ z = 1

def compareValues (T : Target W) (kind : BinKind) (l r : Ty) (x y : Word) : Option Word :=
  if l.isF64 || r.isF64 then T.bin kind tyI64 .f64 .f64 (asF64 T l x) (asF64 T r y)
  else T.bin kind tyI64 l r x y

def RelOp.compare (T : Target W) (op : RelOp) (l r : Ty) (x y : Word) : Option Word :=
  if op.swap then compareValues T op.kind r l y x else compareValues T op.kind l r x y

/-- The rest of a chain, behind an operand of type `ty` with value `x`. -/
def chained (T : Target W) (answers : Answers W) : Ty → Word → List Link → W → Option (Word × W)
  | _, _, [], w => some (1, w)
  | ty, x, link :: rest, w =>
      (run T answers (rvalize link.operand) w).bind fun right =>
        (link.op.compare T ty (rvalize link.operand).ty x right.1).bind fun holds =>
          if T.truth tyI64 holds then
            chained T answers (rvalize link.operand).ty right.1 rest right.2
          else some (0, right.2)

def chainedTwo (T : Target W) (answers : Answers W) (first : Expr) (link : Link) (rest : List Link)
    (x y : Word) (w : W) : Option (Word × W) :=
  (link.op.compare T (rvalize first).ty (rvalize link.operand).ty x y).bind fun holds =>
    if T.truth tyI64 holds then chained T answers (rvalize link.operand).ty y rest w
    else some (0, w)

/-- A chain evaluated in the order of its text, or with its first two operands exchanged. -/
def chainValue (T : Target W) (answers : Answers W) (exchanged : Bool) (first : Expr) :
    List Link → W → Option (Word × W)
  | [], w => run T answers first w
  | link :: rest, w =>
      if exchanged then
        (run T answers (rvalize link.operand) w).bind fun right =>
          (run T answers (rvalize first) right.2).bind fun left =>
            chainedTwo T answers first link rest left.1 right.1 left.2
      else
        (run T answers (rvalize first) w).bind fun left =>
          (run T answers (rvalize link.operand) left.2).bind fun right =>
            chainedTwo T answers first link rest left.1 right.1 right.2

def Link.tmp (link : Link) : Obj := newTemp link.uid (valueType (rvalize link.operand).ty)

def Link.saved (link : Link) : Expr :=
  .assign (valueType link.tmp.ty) (.var link.tmp) (rvalize link.operand)

def firstComparison (first : Expr) (link : Link) (rest : List Link) : Expr :=
  compared link.op first (if rest.isEmpty then rvalize link.operand else link.saved)

/-- The target evaluates the second operand of the chain in front of the first. -/
def exchanged (T : Target W) (first : Expr) : List Link → Bool
  | [] => false
  | link :: rest => T.leftFirst (firstComparison first link rest) == link.op.swap

/-- The operands are numbers and pointers, and the numbers of the temporaries are new. -/
structure Operands (first : Expr) (rest : List Link) : Prop where
  distinct : (rest.map Link.uid).Nodup
  first : Avoids (rest.map Link.uid) first
  avoids : ∀ link ∈ rest, Avoids (rest.map Link.uid) link.operand
  scalar : ∀ link ∈ rest, link.operand.ty.isClass = false

/-! ## One comparison -/

section

variable {T : Target W} {answers : Answers W} {tmps : List Nat}

theorem run_comparison (T : Target W) (answers : Answers W) (kind : BinKind)
    (order : kind = .lt ∨ kind = .le) (lhs rhs : Expr) (w : W) :
    run T answers (comparison kind lhs rhs) w =
      if T.leftFirst (comparison kind lhs rhs) then
        (run T answers lhs w).bind fun left => (run T answers rhs left.2).bind fun right =>
          (compareValues T kind lhs.ty rhs.ty left.1 right.1).map fun z => (z, right.2)
      else
        (run T answers rhs w).bind fun right => (run T answers lhs right.2).bind fun left =>
          (compareValues T kind lhs.ty rhs.ty left.1 right.1).map fun z => (z, left.2) := by
  have strict : kind ≠ .comma ∧ kind ≠ .logand ∧ kind ≠ .logor := by
    rcases order with rfl | rfl
    · decide
    · decide
  unfold comparison compareValues
  split
  · rw [run_bin T answers kind strict]
    simp only [run_toF64, toF64_ty, Function.comp_def, Option.bind_map]
  · exact run_bin T answers kind strict tyI64 lhs rhs w

theorem newBinary_order (kind : BinKind) (order : kind = .lt ∨ kind = .le) (lhs rhs : Expr) :
    newBinary kind lhs rhs = comparison kind (rvalize lhs) (rvalize rhs) := by
  rcases order with rfl | rfl
  · rfl
  · rfl

theorem RelOp.kind_order (op : RelOp) : op.kind = .lt ∨ op.kind = .le := by
  cases op with
  | lt => exact Or.inl rfl
  | le => exact Or.inr rfl
  | gt => exact Or.inl rfl
  | ge => exact Or.inr rfl

/-- One comparison of the lowered tree, in the order that the target has for its sides. -/
theorem run_compared (T : Target W) (answers : Answers W) (op : RelOp) (n rhs : Expr)
    (decayed : isArray rhs.ty = false) (w : W) :
    run T answers (compared op n rhs) w =
      if T.leftFirst (compared op n rhs) == op.swap then
        (run T answers rhs w).bind fun right => (run T answers (rvalize n) right.2).bind fun left =>
          (op.compare T (rvalize n).ty rhs.ty left.1 right.1).map fun z => (z, left.2)
      else
        (run T answers (rvalize n) w).bind fun left => (run T answers rhs left.2).bind fun right =>
          (op.compare T (rvalize n).ty rhs.ty left.1 right.1).map fun z => (z, right.2) := by
  have left := rvalize_scalar (rvalize_ty n)
  have right := rvalize_scalar decayed
  cases swaps : op.swap with
  | true =>
    simp only [compared, RelOp.compare, swaps, if_true, newBinary_order op.kind op.kind_order, left,
      right, run_comparison T answers op.kind op.kind_order, beq_true]
  | false =>
    simp only [compared, RelOp.compare, swaps, Bool.false_eq_true, if_false,
      newBinary_order op.kind op.kind_order, left, right,
      run_comparison T answers op.kind op.kind_order]
    cases T.leftFirst (comparison op.kind (rvalize n) rhs) with
    | true => rfl
    | false => rfl

theorem compared_ty (op : RelOp) (n rhs : Expr) : (compared op n rhs).ty = tyI64 := by
  unfold compared
  split
  · rw [newBinary_order op.kind op.kind_order]
    unfold comparison
    split
    · rfl
    · rfl
  · rw [newBinary_order op.kind op.kind_order]
    unfold comparison
    split
    · rfl
    · rfl

end

/-! ## The loop -/

theorem saved_eq (link : Link) :
    newAssign (.var link.tmp) (rvalize link.operand) = some link.saved :=
  newAssign_temp rfl (rvalize_ty link.operand)

theorem loop_more (n : Expr) (chain : Option Expr) (link : Link) {rest : List Link}
    (more : rest ≠ []) :
    relationalLoop n chain (link :: rest) = relationalLoop (.var link.tmp)
      (some (conjoined chain (compared link.op n link.saved))) rest := by
  have isMore : rest.isEmpty = false := by simpa using more
  have saved := saved_eq link
  unfold Link.tmp at saved
  rw [relationalLoop, isMore]
  simp only [Bool.false_eq_true, if_false, saved]
  rfl

section

variable {T : Target W} {answers : Answers W} {tmps : List Nat}

theorem valueType_isF64 (ty : Ty) : (valueType ty).isF64 = ty.isF64 := by
  cases ty with
  | int size isUnsigned =>
    cases isUnsigned with
    | true => rfl
    | false => rfl
  | _ => rfl

/-- A temporary compares as the operand it was made for. -/
theorem compare_valueType (widened : Widened T) (op : RelOp) (l r : Ty) (x y : Word) :
    op.compare T (valueType l) r x y = op.compare T l r x y ∧
      op.compare T l (valueType r) x y = op.compare T l r x y := by
  have same (ty : Ty) (z : Word) : asF64 T (valueType ty) z = asF64 T ty z := by
    rw [asF64, asF64, valueType_isF64, widened.cast]
  have left (kind : BinKind) (l r : Ty) (x y : Word) :
      compareValues T kind (valueType l) r x y = compareValues T kind l r x y := by
    rw [compareValues, compareValues, valueType_isF64, same, widened.left]
  have right (kind : BinKind) (l r : Ty) (x y : Word) :
      compareValues T kind l (valueType r) x y = compareValues T kind l r x y := by
    rw [compareValues, compareValues, valueType_isF64, same, widened.right]
  constructor
  · rw [RelOp.compare, RelOp.compare, left, right]
  · rw [RelOp.compare, RelOp.compare, left, right]

theorem chained_valueType (widened : Widened T) (ty : Ty) (x : Word) (rest : List Link) (w : W) :
    chained T answers (valueType ty) x rest w = chained T answers ty x rest w := by
  cases rest with
  | nil => rfl
  | cons link rest => simp only [chained, (compare_valueType widened _ _ _ _ _).1]

theorem valueType_scalar {ty : Ty} (notArray : isArray ty = false) (notClass : ty.isClass = false) :
    isAgg (valueType ty) = false := by
  cases ty with
  | int size isUnsigned =>
    cases isUnsigned with
    | true => rfl
    | false => rfl
  | array base len => cases notArray
  | cls name => cases notClass
  | _ => rfl

theorem rvalize_class {e : Expr} (notClass : e.ty.isClass = false) :
    (rvalize e).ty.isClass = false := by
  unfold rvalize
  split
  · rfl
  · exact notClass

/-- What is left to do behind the comparisons `chain`, with the last operand in a temporary. -/
def continued (T : Target W) (answers : Answers W) (v : Obj) (rest : List Link)
    (s : Word × W × Temps) : Option (Word × W) :=
  if T.truth tyI64 s.1 then chained T answers v.ty (s.2.2 v.uid) rest s.2.1 else some (0, s.2.1)

variable (T answers) in
/-- A comparison with a temporary on its left: whichever side comes first, the right side
is evaluated once, and the temporary is as it was. -/
theorem compared_temp {v : Obj} (isTemp : v.uid ∈ tmps) (scalar : isAgg v.ty = false) (op : RelOp)
    (operand rhs : Expr) (decayed : isArray rhs.ty = false) (set : Word → Temps → Temps)
    (runs : ∀ w t, run (withTemps T tmps) (beside answers) rhs (w, t) =
      (run T answers operand w).map fun s => (s.1, s.2, set s.1 t))
    (keeps : ∀ y t, set y t v.uid = t v.uid) (w : W) (t : Temps) :
    run (withTemps T tmps) (beside answers) (compared op (.var v) rhs) (w, t) =
      (run T answers operand w).bind fun s =>
        (op.compare T v.ty rhs.ty (t v.uid) s.1).map fun z => (z, s.2, set s.1 t) := by
  have notArray : isArray v.ty = false := by
    cases ty : v.ty with
    | array base len =>
      rw [ty] at scalar
      cases scalar
    | _ => rfl
  have left : rvalize (.var v) = .var v := rvalize_scalar notArray
  have compares : op.compare (withTemps T tmps) = op.compare T := rfl
  rw [run_compared _ _ op _ rhs decayed, left, compares]
  split
  · rw [runs, Option.bind_map]
    simp only [Function.comp_def, run_temp T answers isTemp scalar, Option.bind_some, keeps]
    rfl
  · rw [run_temp T answers isTemp scalar, Option.bind_some, runs, Option.bind_map]
    rfl

theorem conjoined_run {chain cmp : Expr} (chainTy : chain.ty = tyI64) (cmpTy : cmp.ty = tyI64)
    (w : W) :
    run T answers (conjoined (some chain) cmp) w = (run T answers chain w).bind fun left =>
      if T.truth tyI64 left.1 then
        (run T answers cmp left.2).map fun right =>
          (if T.truth tyI64 right.1 then 1 else 0, right.2)
      else some (0, left.2) := by
  have scalar (e : Expr) (ty : e.ty = tyI64) : toBool (rvalize e) = e := by
    have notArray : isArray e.ty = false := by rw [ty]; rfl
    rw [rvalize_scalar notArray, toBool, ty]
    rfl
  show run T answers (.bin .logand tyI64 (toBool (rvalize chain)) (toBool (rvalize cmp))) w = _
  rw [scalar chain chainTy, scalar cmp cmpTy, run_logand, chainTy, cmpTy]

variable (answers) in
theorem loop_run (widened : Widened T) (rest : List Link) :
    ∀ (v : Obj) (chain : Expr), rest ≠ [] → chain.ty = tyI64 → v.uid ∈ tmps →
      isAgg v.ty = false → v.uid ∉ rest.map Link.uid → (rest.map Link.uid).Nodup →
      (∀ link ∈ rest, link.uid ∈ tmps) → (∀ link ∈ rest, Avoids tmps link.operand) →
      (∀ link ∈ rest, link.operand.ty.isClass = false) →
      ∃ lowered, relationalLoop (.var v) (some chain) rest = some lowered ∧
        ∀ m, visible (run (withTemps T tmps) (beside answers) lowered m) =
          (run (withTemps T tmps) (beside answers) chain m).bind (continued T answers v rest) := by
  induction rest with
  | nil =>
    intro v chain notEmpty
    exact absurd rfl notEmpty
  | cons link rest ih =>
    intro v chain _ chainTy isTemp scalar other distinct temps avoids classes
    have decayed := rvalize_ty link.operand
    have avoid := rvalize_avoids (avoids link List.mem_cons_self)
    by_cases isLast : rest = []
    · subst isLast
      refine ⟨_, rfl, ?_⟩
      intro m
      have cmp := compared_temp T answers isTemp scalar link.op
        (rvalize link.operand) (rvalize link.operand) decayed (fun _ t => t)
        (fun w t => run_avoids avoid w t) (fun _ _ => rfl)
      rw [conjoined_run chainTy (compared_ty _ _ _), visible_bind]
      congr 1
      funext s
      have zero : (withTemps T tmps).truth = T.truth := rfl
      unfold continued
      rw [zero]
      split
      · rw [cmp s.2.1 s.2.2, chained]
        cases run T answers (rvalize link.operand) s.2.1 with
        | none => rfl
        | some right =>
          simp only [Option.bind_some]
          cases link.op.compare T v.ty (rvalize link.operand).ty (s.2.2 v.uid) right.1 with
          | none => rfl
          | some holds =>
            simp only [Option.map_some, Option.bind_some, chained, visible]
            split
            · rfl
            · rfl
      · rfl
    · have notClass := rvalize_class (classes link List.mem_cons_self)
      have tmpScalar : isAgg link.tmp.ty = false := valueType_scalar decayed notClass
      have tmpTemp : link.tmp.uid ∈ tmps := temps link List.mem_cons_self
      have apart : v.uid ≠ link.tmp.uid := by
        intro same
        exact other (List.mem_map.mpr ⟨link, List.mem_cons_self, same.symm⟩)
      rw [List.map_cons, List.nodup_cons] at distinct
      have chainTy' : (conjoined (some chain) (compared link.op (.var v) link.saved)).ty = tyI64 :=
        rfl
      obtain ⟨lowered, isLowered, runs⟩ := ih link.tmp _ isLast chainTy' tmpTemp tmpScalar
        distinct.1 distinct.2 (fun link' inRest => temps link' (List.mem_cons_of_mem link inRest))
        (fun link' inRest => avoids link' (List.mem_cons_of_mem link inRest))
        (fun link' inRest => classes link' (List.mem_cons_of_mem link inRest))
      refine ⟨lowered, (loop_more (.var v) (some chain) link isLast).trans isLowered, ?_⟩
      intro m
      have savedDecayed : isArray link.saved.ty = false := valueType_decayed link.tmp.ty
      have cmp := compared_temp T answers isTemp scalar link.op (rvalize link.operand) link.saved
        savedDecayed (fun y t uid => if uid = link.tmp.uid then y else t uid)
        (fun w t => by
          rw [Link.saved, run_assignTemp tmpTemp, run_avoids avoid, aside, Option.map_map]
          rfl)
        (fun y t => if_neg apart)
      rw [runs, conjoined_run chainTy (compared_ty _ _ _), Option.bind_assoc]
      congr 1
      funext s
      have same : (withTemps T tmps).truth = T.truth := rfl
      have zeroFails : ¬T.truth tyI64 0 = true := by
        rw [widened.truth_zero]
        exact Bool.false_ne_true
      unfold continued
      rw [same]
      split
      · rw [cmp s.2.1 s.2.2, chained]
        cases run T answers (rvalize link.operand) s.2.1 with
        | none => rfl
        | some right =>
          have savedTy : link.saved.ty = valueType (valueType (rvalize link.operand).ty) := rfl
          have tmpTy : link.tmp.ty = valueType (rvalize link.operand).ty := rfl
          simp only [Option.bind_some, savedTy, tmpTy, (compare_valueType widened _ _ _ _ _).2,
            chained_valueType widened]
          cases link.op.compare T v.ty (rvalize link.operand).ty (s.2.2 v.uid) right.1 with
          | none => rfl
          | some holds =>
            simp only [Option.map_some, Option.bind_some, if_true]
            split
            · rw [if_pos widened.truth_one]
            · rfl
      · rw [Option.bind_some, if_neg zeroFails]

/-- The first comparison, with its right side kept or not. -/
theorem first_run (link : Link) (first rhs : Expr) (decayed : isArray rhs.ty = false)
    (avoidsFirst : Avoids tmps first) (set : Word → Temps → Temps)
    (runs : ∀ w t, run (withTemps T tmps) (beside answers) rhs (w, t) =
      (run T answers (rvalize link.operand) w).map fun s => (s.1, s.2, set s.1 t))
    (w : W) (t : Temps) :
    run (withTemps T tmps) (beside answers) (compared link.op first rhs) (w, t) =
      if T.leftFirst (compared link.op first rhs) == link.op.swap then
        (run T answers (rvalize link.operand) w).bind fun right =>
          (run T answers (rvalize first) right.2).bind fun left =>
            (link.op.compare T (rvalize first).ty rhs.ty left.1 right.1).map fun z =>
              (z, left.2, set right.1 t)
      else
        (run T answers (rvalize first) w).bind fun left =>
          (run T answers (rvalize link.operand) left.2).bind fun right =>
            (link.op.compare T (rvalize first).ty rhs.ty left.1 right.1).map fun z =>
              (z, right.2, set right.1 t) := by
  have avoids := rvalize_avoids avoidsFirst
  have compares : link.op.compare (withTemps T tmps) = link.op.compare T := rfl
  have order : (withTemps T tmps).leftFirst = T.leftFirst := rfl
  rw [run_compared _ _ link.op first rhs decayed, compares, order]
  split
  · rw [runs, Option.bind_map]
    simp only [Function.comp_def, run_avoids avoids, aside, Option.bind_map]
  · rw [run_avoids avoids, aside, Option.bind_map]
    simp only [Function.comp_def, runs, Option.bind_map]

theorem compare_cases (widened : Widened T) {op : RelOp} {l r : Ty} {x y z : Word}
    (holds : op.compare T l r x y = some z) : z = 0 ∨ z = 1 := by
  have values (l r : Ty) (x y : Word) (same : compareValues T op.kind l r x y = some z) :
      z = 0 ∨ z = 1 := by
    unfold compareValues at same
    split at same
    · exact widened.compares op.kind _ _ _ _ z op.kind_order same
    · exact widened.compares op.kind _ _ _ _ z op.kind_order same
  unfold RelOp.compare at holds
  split at holds
  · exact values _ _ _ _ holds
  · exact values _ _ _ _ holds

variable (answers) in
/-- A comparison that ends the chain is the value of the chain. -/
theorem last_value (widened : Widened T) (first : Expr) (link : Link) (x y : Word) (w : W)
    (t : Temps) :
    visible ((link.op.compare T (rvalize first).ty (rvalize link.operand).ty x y).map fun z =>
      (z, w, t)) = chainedTwo T answers first link [] x y w := by
  unfold chainedTwo
  cases holds : link.op.compare T (rvalize first).ty (rvalize link.operand).ty x y with
  | none => rfl
  | some z =>
    rcases compare_cases widened holds with rfl | rfl
    · rw [Option.bind_some, if_neg (by rw [widened.truth_zero]; exact Bool.false_ne_true)]
      rfl
    · rw [Option.bind_some, if_pos widened.truth_one]
      rfl

variable (answers) in
/-- The lowering of a chain is the chain, with the first two operands exchanged where the
target takes them so. -/
theorem relational_run (widened : Widened T) (first : Expr) (rest : List Link)
    (operands : Operands first rest) :
    ∃ lowered, relational first rest = some lowered ∧ ∀ m,
      visible (run (withTemps T (rest.map Link.uid)) (beside answers) lowered m) =
        chainValue T answers (exchanged T first rest) first rest m.1 := by
  cases rest with
  | nil =>
    refine ⟨first, rfl, ?_⟩
    intro m
    have alone : run (withTemps T []) (beside answers) first m =
        aside m.2 (run T answers first m.1) :=
      run_avoids operands.first m.1 m.2
    show visible (run (withTemps T []) (beside answers) first m) = run T answers first m.1
    rw [alone, aside, visible, Option.map_map]
    exact Option.map_id'
  | cons link rest =>
    have avoid := rvalize_avoids (operands.avoids link List.mem_cons_self)
    have decayed := rvalize_ty link.operand
    by_cases isLast : rest = []
    · subst isLast
      refine ⟨_, rfl, ?_⟩
      intro m
      have runs (w : W) (t : Temps) :
          run (withTemps T [link.uid]) (beside answers) (rvalize link.operand) (w, t) =
            aside t (run T answers (rvalize link.operand) w) := run_avoids avoid w t
      have whole := first_run link first (rvalize link.operand) decayed operands.first
        (fun _ t => t) runs m.1 m.2
      have order : exchanged T first [link] =
          (T.leftFirst (compared link.op first (rvalize link.operand)) == link.op.swap) := rfl
      refine (congrArg visible whole).trans ?_
      rw [order, chainValue]
      split
      · simp only [visible_bind, last_value answers widened]
      · simp only [visible_bind, last_value answers widened]
    · have notClass := rvalize_class (operands.scalar link List.mem_cons_self)
      have tmpScalar : isAgg link.tmp.ty = false := valueType_scalar decayed notClass
      have distinct := operands.distinct
      rw [List.map_cons, List.nodup_cons] at distinct
      have isTemp : link.tmp.uid ∈ (link :: rest).map Link.uid := List.mem_cons_self
      have chainTy : (compared link.op first link.saved).ty = tyI64 := compared_ty _ _ _
      obtain ⟨lowered, isLowered, loop⟩ := loop_run answers widened rest link.tmp _
        isLast chainTy isTemp tmpScalar distinct.1 distinct.2
        (fun link' inRest => List.mem_cons_of_mem _ (List.mem_map_of_mem inRest))
        (fun link' inRest => operands.avoids link' (List.mem_cons_of_mem link inRest))
        (fun link' inRest => operands.scalar link' (List.mem_cons_of_mem link inRest))
      refine ⟨lowered, (loop_more first none link isLast).trans isLowered, ?_⟩
      intro m
      have savedDecayed : isArray link.saved.ty = false := valueType_decayed link.tmp.ty
      have runs (w : W) (t : Temps) :
          run (withTemps T ((link :: rest).map Link.uid)) (beside answers) link.saved (w, t) =
            (run T answers (rvalize link.operand) w).map fun s =>
              (s.1, s.2, fun uid => if uid = link.tmp.uid then s.1 else t uid) := by
        rw [Link.saved, run_assignTemp isTemp, run_avoids avoid, aside, Option.map_map]
        rfl
      have whole := first_run link first link.saved savedDecayed operands.first
        (fun y t uid => if uid = link.tmp.uid then y else t uid) runs m.1 m.2
      have savedTy : link.saved.ty = valueType (valueType (rvalize link.operand).ty) := rfl
      have tmpTy : link.tmp.ty = valueType (rvalize link.operand).ty := rfl
      -- the first comparison decides whether the loop goes on
      have goesOn (x y : Word) (w : W) (t : Temps) :
          ((link.op.compare T (rvalize first).ty link.saved.ty x y).map fun z =>
            (z, w, fun uid => if uid = link.tmp.uid then y else t uid)).bind
              (continued T answers link.tmp rest) = chainedTwo T answers first link rest x y w := by
        rw [savedTy, (compare_valueType widened _ _ _ _ _).2,
          (compare_valueType widened _ _ _ _ _).2, chainedTwo, Option.bind_map]
        congr 1
        funext z
        simp only [Function.comp_apply, continued, tmpTy, chained_valueType widened, if_true]
      have order : exchanged T first (link :: rest) =
          (T.leftFirst (compared link.op first link.saved) == link.op.swap) := by
        have isMore : rest.isEmpty = false := by simpa using isLast
        rw [exchanged, firstComparison, isMore]
        rfl
      rw [loop, whole, order, chainValue]
      split
      · simp only [Option.bind_assoc, goesOn]
      · simp only [Option.bind_assoc, goesOn]

end

/-! ## The order of the operands -/

/-- Chains with these operators are evaluated in the order of their text, whatever the
operands are and whatever they do to the memory, by targets that take the left side of a node
first, or by those that take the right one first. -/
def InOrder (leftFirst : Bool) (ops : List RelOp) : Prop :=
  ∀ (W : Type) (T : Target W) (answers : Answers W) (first : Expr) (rest : List Link),
    Widened T → (∀ e, T.leftFirst e = leftFirst) → rest.map Link.op = ops → Operands first rest →
    ∃ lowered, relational first rest = some lowered ∧ ∀ m,
      visible (run (withTemps T (rest.map Link.uid)) (beside answers) lowered m) =
        chainValue T answers false first rest m.1

namespace Traced

open Eval.Plain

/-- Calls write their names to the console: `F` is 1 there and `G` is 2. -/
def answers : Answers Plain := fun f _ m =>
  match f with
  | .name "F" => some (0, { m with console := m.console ++ [1] })
  | .name "G" => some (0, { m with console := m.console ++ [2] })
  | _ => none

def first : Expr := .call tyI64 "F" .noArg 0

def link (op : RelOp) : Link := { op := op, operand := .call tyI64 "G" .noArg 0, uid := 0 }

def constants (uid : Nat) : List RelOp → List Link
  | [] => []
  | op :: ops => { op := op, operand := .num 0, uid := uid } :: constants (uid + 1) ops

def links (op : RelOp) (ops : List RelOp) : List Link := link op :: constants 1 ops

theorem constants_ops (ops : List RelOp) : ∀ uid, (constants uid ops).map Link.op = ops := by
  induction ops with
  | nil => exact fun _ => rfl
  | cons op ops ih =>
    intro uid
    rw [constants, List.map_cons, ih]

theorem constants_uids (ops : List RelOp) :
    ∀ uid, (constants uid ops).map Link.uid = List.range' uid ops.length := by
  induction ops with
  | nil => exact fun _ => rfl
  | cons op ops ih =>
    intro uid
    rw [constants, List.map_cons, ih]
    rfl

theorem constants_operand (ops : List RelOp) :
    ∀ uid, ∀ link ∈ constants uid ops, link.operand = .num 0 := by
  induction ops with
  | nil =>
    intro uid link inNone
    cases inNone
  | cons op ops ih =>
    intro uid link inLinks
    cases inLinks with
    | head => rfl
    | tail _ inRest => exact ih (uid + 1) link inRest

theorem operands (op : RelOp) (ops : List RelOp) : Operands first (links op ops) where
  distinct := by
    rw [links, List.map_cons, constants_uids]
    exact List.nodup_range' (n := ops.length + 1) (s := 0)
  first := trivial
  avoids := by
    intro link' inLinks
    cases inLinks with
    | head => trivial
    | tail _ inRest =>
      rw [constants_operand ops 1 link' inRest]
      trivial
  scalar := by
    intro link' inLinks
    cases inLinks with
    | head => rfl
    | tail _ inRest =>
      rw [constants_operand ops 1 link' inRest]
      rfl

def target (leftFirst : Bool) : Target Plain := { Plain.target with leftFirst := fun _ => leftFirst }

variable {leftFirst : Bool}

theorem target_widened : Widened (target leftFirst) where
  left _ _ _ _ _ _ := rfl
  right _ _ _ _ _ _ := rfl
  cast _ _ _ _ := rfl
  truth_zero := rfl
  truth_one := rfl
  compares := by
    intro kind l r x y z order value
    rcases order with rfl | rfl
    · change some (if x.slt y then (1 : Word) else 0) = some z at value
      cases value
      split
      · exact Or.inr rfl
      · exact Or.inl rfl
    · change some (if x.sle y then (1 : Word) else 0) = some z at value
      cases value
      split
      · exact Or.inr rfl
      · exact Or.inl rfl

theorem compare_some (op : RelOp) (x y : Word) :
    ∃ z, op.compare (target leftFirst) tyI64 tyI64 x y = some z := by
  cases op with
  | lt => exact ⟨_, rfl⟩
  | le => exact ⟨_, rfl⟩
  | gt => exact ⟨_, rfl⟩
  | ge => exact ⟨_, rfl⟩

/-- Behind the calls the memory does not change: constants follow. -/
theorem chained_constants (ops : List RelOp) : ∀ (uid : Nat) (x : Word) (w : Plain),
    ∃ v, chained (target leftFirst) answers tyI64 x (constants uid ops) w = some (v, w) := by
  induction ops with
  | nil =>
    intro uid x w
    exact ⟨1, rfl⟩
  | cons op ops ih =>
    intro uid x w
    obtain ⟨z, compares⟩ := @compare_some leftFirst op x 0
    have ends : chained (target leftFirst) answers tyI64 x (constants uid (op :: ops)) w =
        (op.compare (target leftFirst) tyI64 tyI64 x 0).bind fun holds =>
          if (target leftFirst).truth tyI64 holds then
            chained (target leftFirst) answers tyI64 0 (constants (uid + 1) ops) w
          else some (0, w) := rfl
    rw [ends, compares, Option.bind_some]
    split
    · exact ih (uid + 1) 0 w
    · exact ⟨0, rfl⟩

theorem chainedTwo_constants (op : RelOp) (ops : List RelOp) (w : Plain) :
    ∃ v, chainedTwo (target leftFirst) answers first (link op) (constants 1 ops) 0 0 w = some (v, w) := by
  obtain ⟨z, compares⟩ := compare_some op 0 0
  have ends : chainedTwo (target leftFirst) answers first (link op) (constants 1 ops) 0 0 w =
      (op.compare (target leftFirst) tyI64 tyI64 0 0).bind fun holds =>
        if (target leftFirst).truth tyI64 holds then chained (target leftFirst) answers tyI64 0 (constants 1 ops) w
        else some (0, w) := rfl
  rw [ends, compares, Option.bind_some]
  split
  · exact chained_constants ops 1 0 w
  · exact ⟨0, rfl⟩

/-- The console tells which of the two calls came first. -/
theorem chainValue_console (exchanged : Bool) (op : RelOp) (ops : List RelOp) :
    (chainValue (target leftFirst) answers exchanged first (links op ops) {}).map (fun s => s.2.console) =
      some (if exchanged then [2, 1] else [1, 2]) := by
  cases exchanged with
  | true =>
    obtain ⟨v, ends⟩ := chainedTwo_constants op ops { console := [2, 1] }
    exact congrArg (Option.map fun s => s.2.console) ends
  | false =>
    obtain ⟨v, ends⟩ := chainedTwo_constants op ops { console := [1, 2] }
    exact congrArg (Option.map fun s => s.2.console) ends

theorem exchanged_outOfOrder (op : RelOp) (ops : List RelOp) (swap : op.swap = leftFirst) :
    ¬InOrder leftFirst (op :: ops) := by
  intro inOrder
  have isOps : (links op ops).map Link.op = op :: ops :=
    congrArg (List.cons op) (constants_ops ops 1)
  obtain ⟨lowered, isLowered, textual⟩ := inOrder Plain (target leftFirst) answers first
    (links op ops) target_widened (fun _ => rfl) isOps (operands op ops)
  obtain ⟨lowered', isLowered', actual⟩ := relational_run answers (@target_widened leftFirst)
    first (links op ops) (operands op ops)
  rw [isLowered] at isLowered'
  cases isLowered'
  have same := (actual ({}, fun _ => 0)).symm.trans (textual ({}, fun _ => 0))
  have isSwapped : exchanged (target leftFirst) first (links op ops) = true := by
    rw [← swap]
    exact beq_self_eq_true op.swap
  rw [isSwapped] at same
  have consoles := congrArg (Option.map fun s => s.2.console) same
  rw [chainValue_console, chainValue_console] at consoles
  simp at consoles

end Traced

/-- The lowered tree of a chain is the chain with its operands in textual order, or with
the first two exchanged. With the left side of a node first the order is that of the text just
where the first operator is `<` or `<=`, with the right side first where it is `>` or `>=`. -/
theorem relational_inOrder (leftFirst : Bool) (ops : List RelOp) :
    (InOrder leftFirst ops ↔ ∀ op ∈ ops.head?, op = .lt ∨ op = .le ↔ leftFirst = true) ∧
    ∀ (W : Type) (T : Target W) (answers : Answers W) (first : Expr) (rest : List Link),
      Widened T → Operands first rest →
      ∃ lowered, relational first rest = some lowered ∧ ∀ m,
        visible (run (withTemps T (rest.map Link.uid)) (beside answers) lowered m) =
          chainValue T answers (exchanged T first rest) first rest m.1 := by
  have plain (op : RelOp) : op.swap = false ↔ op = .lt ∨ op = .le := by
    cases op with
    | lt => decide
    | le => decide
    | gt => decide
    | ge => decide
  constructor
  · constructor
    · intro inOrder op isHead
      cases ops with
      | nil => cases isHead
      | cons op' ops =>
        cases isHead
        have other : op.swap ≠ leftFirst := fun swap =>
          Traced.exchanged_outOfOrder op ops swap inOrder
        rw [← plain]
        cases leftFirst with
        | true => simpa using other
        | false => simpa using other
    · intro first W T answers e rest widened order isOps operands
      have inOrder : exchanged T e rest = false := by
        cases rest with
        | nil => rfl
        | cons link rest =>
          have head := first link.op (by rw [← isOps]; rfl)
          rw [← plain] at head
          rw [exchanged, order]
          cases leftFirst with
          | true =>
            rw [head.mpr rfl]
            rfl
          | false =>
            cases swap : link.op.swap with
            | true => rfl
            | false => cases head.mp swap
      have ends := relational_run answers widened e rest operands
      rw [inOrder] at ends
      exact ends
  · intro W T answers first rest widened operands
    exact relational_run answers widened first rest operands

/-- With the left side first `F() > G()` calls `G` first, and with the right side first
`F() < G()` does. -/
theorem greater_outOfOrder : ¬InOrder true [.gt] ∧ ¬InOrder false [.lt] :=
  ⟨Traced.exchanged_outOfOrder .gt [] rfl, Traced.exchanged_outOfOrder .lt [] rfl⟩

end Aholyc.Parse
