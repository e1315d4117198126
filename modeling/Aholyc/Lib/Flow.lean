import Mathlib.Tactic.Basic

/-!
# Structured statements with jumps

The outcome of running one statement, and the combinators from which the
meaning of a statement language with labels is put together. A jump is an
outcome like any other; the innermost construct that contains the label
re-enters itself there (`region`), so a meaning is a recursion on the syntax
and the fuel only bounds how often a construct is re-entered or iterated.

Each combinator has a rule for invariants (`Holds`) and a rule for
simulations (`Sim.Rel`).
-/

namespace Aholyc.Lib

inductive Out (L V X S : Type) where
  | next (s : S)
  | jump (l : L) (s : S)
  | ret (v : V) (s : S)
  | abort (x : X) (s : S)
  | timeout (s : S)

/-- Where control enters a statement: at its start, or at a label inside it. -/
inductive Entry (L : Type) where
  | run
  | seek (l : L)

def Entry.map {L K : Type} (f : L → K) : Entry L → Entry K
  | run => run
  | seek l => seek (f l)

def Entry.Within {L : Type} (has : L → Bool) : Entry L → Prop
  | run => True
  | seek l => has l = true

inductive Test (X S : Type) where
  | val (b : Bool) (s : S)
  | abort (x : X) (s : S)
  | timeout (s : S)

namespace Flow

variable {L V X S : Type}

def after (o : Out L V X S) (f : S → Out L V X S) : Out L V X S :=
  match o with
  | .next s => f s
  | o => o

/-- A statement that contains no label: it can only be entered at its start. -/
def leaf (f : S → Out L V X S) : Entry L → S → Out L V X S
  | .run, s => f s
  | .seek l, s => .jump l s

def region (has : L → Bool) (f : Entry L → S → Out L V X S) :
    Nat → Entry L → S → Out L V X S
  | fuel, e, s =>
      match f e s with
      | .jump l s' =>
          if has l then
            match fuel with
            | 0 => .timeout s'
            | fuel + 1 => region has f fuel (.seek l) s'
          else .jump l s'
      | o => o

/-- What follows the first part of a sequence whose second part is `b`. -/
def resume (hasB : L → Bool) (b : Entry L → S → Out L V X S) (o : Out L V X S) : Out L V X S :=
  match o with
  | .next s => b .run s
  | .jump l s => if hasB l then b (.seek l) s else .jump l s
  | o => o

/-- `a` and then `b`; a jump of `a` to a label of `b` goes on there. -/
def andThen (hasA hasB : L → Bool) (a b : Entry L → S → Out L V X S) :
    Entry L → S → Out L V X S
  | .run, s => resume hasB b (a .run s)
  | .seek l, s => if hasA l then resume hasB b (a (.seek l) s) else b (.seek l) s

/-- What follows a test; `raise` is what an abnormal end of the test means. -/
def onTest (raise : X → S → Out L V X S) (q : Test X S) (k : Bool → S → Out L V X S) :
    Out L V X S :=
  match q with
  | .val b s => k b s
  | .abort x s => raise x s
  | .timeout s => .timeout s

def branch (hasA : L → Bool) (raise : X → S → Out L V X S) (c : S → Test X S)
    (a b : Entry L → S → Out L V X S) : Entry L → S → Out L V X S
  | .run, s => onTest raise (c s) fun v s' => if v then a .run s' else b .run s'
  | .seek l, s => if hasA l then a (.seek l) s else b (.seek l) s

def loop (raise : X → S → Out L V X S) (c : S → Test X S) (body : S → Out L V X S) :
    Nat → S → Out L V X S
  | 0, s => .timeout s
  | fuel + 1, s =>
      onTest raise (c s) fun v s' =>
        if v then after (body s') (loop raise c body fuel) else .next s'

/-- `while (c) body`, entered at the test or at a label of the body. -/
def whileLoop (raise : X → S → Out L V X S) (c : S → Test X S)
    (body : Entry L → S → Out L V X S) (fuel : Nat) : Entry L → S → Out L V X S
  | .run, s => loop raise c (body .run) fuel s
  | .seek l, s => after (body (.seek l) s) (loop raise c (body .run) fuel)

def doLoop (raise : X → S → Out L V X S) (c : S → Test X S)
    (body : Entry L → S → Out L V X S) (fuel : Nat) (e : Entry L) (s : S) : Out L V X S :=
  after (body e s) (loop raise c (body .run) fuel)

end Flow

section Invariants

open Aholyc.Lib.Flow

variable {L V X S : Type}

/-- An outcome whose states satisfy `P`, and whose abnormal end satisfies `A`. -/
def Out.Holds (P : S → Prop) (A : X → S → Prop) : Out L V X S → Prop
  | next s => P s
  | jump _ s => P s
  | ret _ s => P s
  | abort x s => A x s
  | timeout s => P s

def Test.Holds (P : S → Prop) (A : X → S → Prop) : Test X S → Prop
  | val _ s => P s
  | abort x s => A x s
  | timeout s => P s

variable {P : S → Prop} {A : X → S → Prop}

theorem Out.Holds.mono {B : X → S → Prop} {o : Out L V X S} (weaker : ∀ x s, A x s → B x s)
    (holds : o.Holds P A) : o.Holds P B := by
  cases o with
  | abort x s => exact weaker x s holds
  | _ => exact holds

theorem Test.Holds.mono {B : X → S → Prop} {q : Test X S} (weaker : ∀ x s, A x s → B x s)
    (holds : q.Holds P A) : q.Holds P B := by
  cases q with
  | abort x s => exact weaker x s holds
  | _ => exact holds

theorem after_holds {o : Out L V X S} {f : S → Out L V X S} (first : o.Holds P A)
    (rest : ∀ s, P s → (f s).Holds P A) : (after o f).Holds P A := by
  cases o with
  | next s => exact rest s first
  | _ => exact first

theorem leaf_holds {f : S → Out L V X S} (body : ∀ s, P s → (f s).Holds P A)
    (e : Entry L) (s : S) (start : P s) : (leaf f e s).Holds P A := by
  cases e with
  | run => exact body s start
  | seek l => exact start

theorem region_holds {has : L → Bool} {f : Entry L → S → Out L V X S}
    (body : ∀ e s, P s → (f e s).Holds P A) (fuel : Nat) (e : Entry L) (s : S) (start : P s) :
    (region has f fuel e s).Holds P A := by
  induction fuel generalizing e s with
  | zero =>
    have once := body e s start
    unfold region
    cases result : f e s with
    | jump l s' =>
      rw [result] at once
      simp only
      split <;> exact once
    | _ =>
      rw [result] at once
      exact once
  | succ fuel ih =>
    have once := body e s start
    unfold region
    cases result : f e s with
    | jump l s' =>
      rw [result] at once
      simp only
      split
      · exact ih (.seek l) s' once
      · exact once
    | _ =>
      rw [result] at once
      exact once

theorem resume_holds {hasB : L → Bool} {b : Entry L → S → Out L V X S} {o : Out L V X S}
    (first : o.Holds P A) (rest : ∀ e s, P s → (b e s).Holds P A) :
    (resume hasB b o).Holds P A := by
  cases o with
  | next s => exact rest .run s first
  | jump l s =>
    simp only [resume]
    split
    · exact rest (.seek l) s first
    · exact first
  | _ => exact first

theorem andThen_holds {hasA hasB : L → Bool} {a b : Entry L → S → Out L V X S}
    (first : ∀ e s, P s → (a e s).Holds P A) (rest : ∀ e s, P s → (b e s).Holds P A)
    (e : Entry L) (s : S) (start : P s) : (andThen hasA hasB a b e s).Holds P A := by
  cases e with
  | run => exact resume_holds (first .run s start) rest
  | seek l =>
    simp only [andThen]
    split
    · exact resume_holds (first (.seek l) s start) rest
    · exact rest (.seek l) s start

theorem onTest_holds {q : Test X S} {k : Bool → S → Out L V X S} (test : q.Holds P A)
    (rest : ∀ b s, P s → (k b s).Holds P A) : (onTest .abort q k).Holds P A := by
  cases q with
  | val b s => exact rest b s test
  | _ => exact test

theorem branch_holds {hasA : L → Bool} {c : S → Test X S} {a b : Entry L → S → Out L V X S}
    (test : ∀ s, P s → (c s).Holds P A) (thn : ∀ e s, P s → (a e s).Holds P A)
    (els : ∀ e s, P s → (b e s).Holds P A) (e : Entry L) (s : S) (start : P s) :
    (branch hasA .abort c a b e s).Holds P A := by
  cases e with
  | run =>
    refine onTest_holds (test s start) fun v s' later => ?_
    split
    · exact thn .run s' later
    · exact els .run s' later
  | seek l =>
    simp only [branch]
    split
    · exact thn (.seek l) s start
    · exact els (.seek l) s start

theorem loop_holds {c : S → Test X S} {body : S → Out L V X S}
    (test : ∀ s, P s → (c s).Holds P A) (step : ∀ s, P s → (body s).Holds P A) (fuel : Nat)
    (s : S) (start : P s) : (loop .abort c body fuel s).Holds P A := by
  induction fuel generalizing s with
  | zero => exact start
  | succ fuel ih =>
    refine onTest_holds (test s start) fun v s' later => ?_
    split
    · exact after_holds (step s' later) ih
    · exact later

theorem doLoop_holds {c : S → Test X S} {body : Entry L → S → Out L V X S}
    (test : ∀ s, P s → (c s).Holds P A) (step : ∀ e s, P s → (body e s).Holds P A) (fuel : Nat)
    (e : Entry L) (s : S) (start : P s) : (doLoop .abort c body fuel e s).Holds P A :=
  after_holds (step e s start) (loop_holds test (step .run) fuel)

theorem whileLoop_holds {c : S → Test X S} {body : Entry L → S → Out L V X S}
    (test : ∀ s, P s → (c s).Holds P A) (step : ∀ e s, P s → (body e s).Holds P A) (fuel : Nat)
    (e : Entry L) (s : S) (start : P s) : (whileLoop .abort c body fuel e s).Holds P A := by
  cases e with
  | run => exact loop_holds test (step .run) fuel s start
  | seek l => exact doLoop_holds test step fuel (.seek l) s start

end Invariants

/-- What it means that a target statement behaves as a source statement. -/
structure Sim (L K V X Y S T : Type) where
  lab : L → K
  /-- The labels that the source jumps to. -/
  live : L → Bool
  next : S → T → Prop
  ret : V → S → T → Prop
  timeout : S → T → Prop
  /-- An abnormal end that is an abnormal end of the target too. -/
  abort : X → S → Y → T → Prop
  /-- An abnormal end that is a jump of the target. -/
  caught : X → S → K → T → Prop
  /-- A source end that says nothing about the target. -/
  free : X → Prop
  /-- A target end that every source outcome allows. -/
  dead : Y → T → Prop

namespace Sim

open Aholyc.Lib.Flow

variable {L K V X Y S T : Type} (R : Sim L K V X Y S T)

inductive Rel : Out L V X S → Out K V Y T → Prop where
  | next {s t} : R.next s t → Rel (.next s) (.next t)
  | jump {l s t} : R.live l = true → R.next s t → Rel (.jump l s) (.jump (R.lab l) t)
  | ret {v s t} : R.ret v s t → Rel (.ret v s) (.ret v t)
  | timeout {s t} : R.timeout s t → Rel (.timeout s) (.timeout t)
  | abort {x s y t} : R.abort x s y t → Rel (.abort x s) (.abort y t)
  | caught {x s l t} : R.caught x s l t → Rel (.abort x s) (.jump l t)
  | free {x s o} : R.free x → Rel (.abort x s) o
  | dead {o y t} : R.dead y t → Rel o (.abort y t)

/-- Tests that agree; `raise` is what the target makes of an abnormal end. -/
inductive TestRel (raise : Y → T → Out K V Y T) : Test X S → Test Y T → Prop where
  | val {b s t} : R.next s t → TestRel raise (.val b s) (.val b t)
  | timeout {s t} : R.timeout s t → TestRel raise (.timeout s) (.timeout t)
  | abort {x s y t} : R.Rel (.abort x s) (raise y t) → TestRel raise (.abort x s) (.abort y t)
  | free {x s q} : R.free x → TestRel raise (.abort x s) q
  | dead {q y t} : (∀ o, R.Rel o (raise y t)) → TestRel raise q (.abort y t)

/-- The labels of a source statement that it may be entered at. -/
def enters (has : L → Bool) (l : L) : Bool := R.live l && has l

/-- The target labels `has'` are the images of the source labels `has`, and no
jump that stands for an abnormal end goes to one of them. -/
structure Agrees (has : L → Bool) (has' : K → Bool) : Prop where
  lab : ∀ l, R.live l = true → has' (R.lab l) = has l
  caught : ∀ x s l t, R.caught x s l t → has' l = false

variable {R}

theorem enters_seek {has : L → Bool} {l : L} (live : R.live l = true) (inside : has l = true) :
    (Entry.seek l).Within (R.enters has) := by
  simp [Entry.Within, enters, live, inside]

theorem enters_live {has : L → Bool} {l : L} (within : (Entry.seek l).Within (R.enters has)) :
    R.live l = true ∧ has l = true := by
  simpa [Entry.Within, enters] using within

theorem after_rel {o : Out L V X S} {o' : Out K V Y T} {f : S → Out L V X S}
    {f' : T → Out K V Y T} (first : R.Rel o o') (rest : ∀ s t, R.next s t → R.Rel (f s) (f' t)) :
    R.Rel (after o f) (after o' f') := by
  cases first with
  | next same => exact rest _ _ same
  | jump live same => exact .jump live same
  | ret same => exact .ret same
  | timeout same => exact .timeout same
  | abort same => exact .abort same
  | caught same => exact .caught same
  | free any => exact .free any
  | dead ended => exact .dead ended

theorem resume_rel {hasB : L → Bool} {hasB' : K → Bool} {b : Entry L → S → Out L V X S}
    {b' : Entry K → T → Out K V Y T} {o : Out L V X S} {o' : Out K V Y T}
    (agrees : R.Agrees hasB hasB') (first : R.Rel o o')
    (rest : ∀ e s t, e.Within (R.enters hasB) → R.next s t → R.Rel (b e s) (b' (e.map R.lab) t)) :
    R.Rel (resume hasB b o) (resume hasB' b' o') := by
  cases first with
  | next same => exact rest .run _ _ trivial same
  | @jump l s t live same =>
    simp only [resume, agrees.lab l live]
    split
    · rename_i inside
      exact rest (.seek l) _ _ (enters_seek live inside) same
    · exact .jump live same
  | ret same => exact .ret same
  | timeout same => exact .timeout same
  | abort same => exact .abort same
  | @caught x s l t same =>
    have outside := agrees.caught x s l t same
    simp only [resume, outside, Bool.false_eq_true, if_false]
    exact .caught same
  | free any => exact .free any
  | dead ended => exact .dead ended

theorem andThen_rel {hasA hasB : L → Bool} {hasA' hasB' : K → Bool}
    {a b : Entry L → S → Out L V X S} {a' b' : Entry K → T → Out K V Y T}
    (agreesA : R.Agrees hasA hasA') (agreesB : R.Agrees hasB hasB')
    (first : ∀ e s t, e.Within (R.enters hasA) → R.next s t → R.Rel (a e s) (a' (e.map R.lab) t))
    (rest : ∀ e s t, e.Within (R.enters hasB) → R.next s t → R.Rel (b e s) (b' (e.map R.lab) t))
    (e : Entry L) (s : S) (t : T) (within : e.Within (R.enters fun l => hasA l || hasB l))
    (same : R.next s t) :
    R.Rel (andThen hasA hasB a b e s) (andThen hasA' hasB' a' b' (e.map R.lab) t) := by
  cases e with
  | run => exact resume_rel agreesB (first .run s t trivial same) rest
  | seek l =>
    obtain ⟨live, either⟩ := enters_live within
    simp only [andThen, Entry.map, agreesA.lab l live]
    split
    · rename_i inside
      exact resume_rel agreesB (first (.seek l) s t (enters_seek live inside) same) rest
    · rename_i outside
      rw [Bool.or_eq_true] at either
      exact rest (.seek l) s t (enters_seek live (either.resolve_left outside)) same

theorem onTest_rel {raise : Y → T → Out K V Y T} {q : Test X S} {q' : Test Y T}
    {k : Bool → S → Out L V X S} {k' : Bool → T → Out K V Y T} (test : R.TestRel raise q q')
    (rest : ∀ b s t, R.next s t → R.Rel (k b s) (k' b t)) :
    R.Rel (onTest .abort q k) (onTest raise q' k') := by
  cases test with
  | val same => exact rest _ _ _ same
  | timeout same => exact .timeout same
  | abort same => exact same
  | free any => exact .free any
  | dead ended => exact ended _

variable {c' : T → Test Y T}

theorem branch_rel {hasA hasB : L → Bool} {hasA' : K → Bool} {raise : Y → T → Out K V Y T}
    {c : S → Test X S} {a b : Entry L → S → Out L V X S} {a' b' : Entry K → T → Out K V Y T}
    (agreesA : ∀ l, R.live l = true → hasA' (R.lab l) = hasA l)
    (test : ∀ s t, R.next s t → R.TestRel raise (c s) (c' t))
    (thn : ∀ e s t, e.Within (R.enters hasA) → R.next s t → R.Rel (a e s) (a' (e.map R.lab) t))
    (els : ∀ e s t, e.Within (R.enters hasB) → R.next s t → R.Rel (b e s) (b' (e.map R.lab) t))
    (e : Entry L) (s : S) (t : T) (within : e.Within (R.enters fun l => hasA l || hasB l))
    (same : R.next s t) :
    R.Rel (branch hasA .abort c a b e s) (branch hasA' raise c' a' b' (e.map R.lab) t) := by
  cases e with
  | run =>
    refine onTest_rel (test s t same) fun v s' t' later => ?_
    split
    · exact thn .run s' t' trivial later
    · exact els .run s' t' trivial later
  | seek l =>
    obtain ⟨live, either⟩ := enters_live within
    simp only [branch, Entry.map, agreesA l live]
    split
    · rename_i inside
      exact thn (.seek l) s t (enters_seek live inside) same
    · rename_i outside
      rw [Bool.or_eq_true] at either
      exact els (.seek l) s t (enters_seek live (either.resolve_left outside)) same

theorem loop_rel {raise : Y → T → Out K V Y T} {c : S → Test X S} {body : S → Out L V X S}
    {body' : T → Out K V Y T} (clock : ∀ s t, R.next s t → R.timeout s t)
    (test : ∀ s t, R.next s t → R.TestRel raise (c s) (c' t))
    (step : ∀ s t, R.next s t → R.Rel (body s) (body' t)) (fuel : Nat) (s : S) (t : T)
    (same : R.next s t) : R.Rel (loop .abort c body fuel s) (loop raise c' body' fuel t) := by
  induction fuel generalizing s t with
  | zero => exact .timeout (clock s t same)
  | succ fuel ih =>
    refine onTest_rel (test s t same) fun v s' t' later => ?_
    split
    · exact after_rel (step s' t' later) ih
    · exact .next later

theorem doLoop_rel {has : L → Bool} {raise : Y → T → Out K V Y T} {c : S → Test X S}
    {body : Entry L → S → Out L V X S} {body' : Entry K → T → Out K V Y T}
    (clock : ∀ s t, R.next s t → R.timeout s t)
    (test : ∀ s t, R.next s t → R.TestRel raise (c s) (c' t))
    (step : ∀ e s t, e.Within (R.enters has) → R.next s t → R.Rel (body e s) (body' (e.map R.lab) t))
    (fuel : Nat) (e : Entry L) (s : S) (t : T) (within : e.Within (R.enters has))
    (same : R.next s t) :
    R.Rel (doLoop .abort c body fuel e s) (doLoop raise c' body' fuel (e.map R.lab) t) := by
  apply after_rel (step e s t within same)
  intro s' t' later
  exact loop_rel clock test (fun s t => step .run s t trivial) fuel s' t' later

theorem whileLoop_rel {has : L → Bool} {raise : Y → T → Out K V Y T} {c : S → Test X S}
    {body : Entry L → S → Out L V X S} {body' : Entry K → T → Out K V Y T}
    (clock : ∀ s t, R.next s t → R.timeout s t)
    (test : ∀ s t, R.next s t → R.TestRel raise (c s) (c' t))
    (step : ∀ e s t, e.Within (R.enters has) → R.next s t → R.Rel (body e s) (body' (e.map R.lab) t))
    (fuel : Nat) (e : Entry L) (s : S) (t : T) (within : e.Within (R.enters has))
    (same : R.next s t) :
    R.Rel (whileLoop .abort c body fuel e s) (whileLoop raise c' body' fuel (e.map R.lab) t) := by
  cases e with
  | run => exact loop_rel clock test (fun s t => step .run s t trivial) fuel s t same
  | seek l => exact doLoop_rel clock test step fuel (.seek l) s t within same

theorem region_rel {has : L → Bool} {has' : K → Bool} {f : Entry L → S → Out L V X S}
    {f' : Entry K → T → Out K V Y T} (clock : ∀ s t, R.next s t → R.timeout s t)
    (agrees : R.Agrees has has')
    (body : ∀ e s t, e.Within (R.enters has) → R.next s t → R.Rel (f e s) (f' (e.map R.lab) t))
    (fuel : Nat) (e : Entry L) (s : S) (t : T) (within : e.Within (R.enters has)) (same : R.next s t) :
    R.Rel (region has f fuel e s) (region has' f' fuel (e.map R.lab) t) := by
  induction fuel generalizing e s t with
  | zero =>
    have once := body e s t within same
    unfold region
    generalize f e s = o at once ⊢
    generalize f' (e.map R.lab) t = o' at once ⊢
    cases once with
    | next same' => exact .next same'
    | @jump l s' t' live same' =>
      simp only [agrees.lab l live]
      split
      · exact .timeout (clock _ _ same')
      · exact .jump live same'
    | ret same' => exact .ret same'
    | timeout same' => exact .timeout same'
    | abort same' => exact .abort same'
    | @caught x s' l t' same' =>
      have outside := agrees.caught x s' l t' same'
      simp only [outside, Bool.false_eq_true, if_false]
      exact .caught same'
    | free any => exact .free any
    | dead ended => exact .dead ended
  | succ fuel ih =>
    have once := body e s t within same
    unfold region
    generalize f e s = o at once ⊢
    generalize f' (e.map R.lab) t = o' at once ⊢
    cases once with
    | next same' => exact .next same'
    | @jump l s' t' live same' =>
      simp only [agrees.lab l live]
      split
      · rename_i inside
        exact ih (.seek l) s' t' (enters_seek live inside) same'
      · exact .jump live same'
    | ret same' => exact .ret same'
    | timeout same' => exact .timeout same'
    | abort same' => exact .abort same'
    | @caught x s' l t' same' =>
      have outside := agrees.caught x s' l t' same'
      simp only [outside, Bool.false_eq_true, if_false]
      exact .caught same'
    | free any => exact .free any
    | dead ended => exact .dead ended

end Sim

end Aholyc.Lib
