import Mathlib.Tactic.Basic

/-!
# Computations that stop at calls

A `Comp` is the evaluation of one expression seen from outside: a total
computation over a state that may stop at a call, hand over the state, and
resume with the answer. Who answers the calls is decided by `Comp.run`, so
one evaluation function serves every meaning of a call: a program function,
a library function, a function that raises.
-/

namespace Aholyc.Lib

/-- The answer of a callee: a value, an abnormal end, or no answer within the
fuel. -/
inductive Answer (V X T : Type) where
  | ret (v : V) (t : T)
  | abort (x : X) (t : T)
  | timeout (t : T)

inductive Comp (F V S A : Type) where
  | done (a : A) (s : S)
  /-- The evaluation has no meaning (division by zero, say). -/
  | stuck (s : S)
  | call (f : F) (args : List V) (s : S) (k : V → S → Comp F V S A)

namespace Comp

variable {F V S A B C : Type}

def bind : Comp F V S A → (A → S → Comp F V S B) → Comp F V S B
  | done a s, g => g a s
  | stuck s, _ => stuck s
  | call f args s k, g => call f args s fun v s' => (k v s').bind g

@[simp] theorem bind_done (a : A) (s : S) (g : A → S → Comp F V S B) :
    (done a s : Comp F V S A).bind g = g a s := rfl

@[simp] theorem bind_stuck (s : S) (g : A → S → Comp F V S B) :
    (stuck s : Comp F V S A).bind g = stuck s := rfl

@[simp] theorem bind_call (f : F) (args : List V) (s : S) (k : V → S → Comp F V S A)
    (g : A → S → Comp F V S B) :
    (call f args s k).bind g = call f args s fun v s' => (k v s').bind g := rfl

theorem bind_assoc (m : Comp F V S A) (g : A → S → Comp F V S B)
    (h : B → S → Comp F V S C) :
    (m.bind g).bind h = m.bind fun a s => (g a s).bind h := by
  induction m with
  | done a s => rfl
  | stuck s => rfl
  | call f args s k ih => simp only [bind_call, ih]

/-- Two computations one after the other, in either order. -/
def both (leftFirst : Bool) (left : S → Comp F V S A) (right : S → Comp F V S B) (s : S) :
    Comp F V S (A × B) :=
  if leftFirst then (left s).bind fun a s => (right s).bind fun b s => done (a, b) s
  else (right s).bind fun b s => (left s).bind fun a s => done (a, b) s

/-- Every call the computation can make satisfies `P`, whatever the answers. -/
def CallsIn (P : F → Prop) : Comp F V S A → Prop
  | done _ _ => True
  | stuck _ => True
  | call f _ _ k => P f ∧ ∀ v s, (k v s).CallsIn P

theorem CallsIn.mono {P Q : F → Prop} (sub : ∀ f, P f → Q f) {m : Comp F V S A}
    (calls : m.CallsIn P) : m.CallsIn Q := by
  induction m with
  | done a s => trivial
  | stuck s => trivial
  | call f args s k ih => exact ⟨sub f calls.1, fun v s' => ih v s' (calls.2 v s')⟩

theorem CallsIn.bind {P : F → Prop} {m : Comp F V S A} {g : A → S → Comp F V S B}
    (first : m.CallsIn P) (rest : ∀ a s, (g a s).CallsIn P) : (m.bind g).CallsIn P := by
  induction m with
  | done a s => exact rest a s
  | stuck s => trivial
  | call f args s k ih => exact ⟨first.1, fun v s' => ih v s' (first.2 v s')⟩

theorem CallsIn.both {P : F → Prop} {left : S → Comp F V S A} {right : S → Comp F V S B}
    (leftFirst : Bool) (one : ∀ s, (left s).CallsIn P) (two : ∀ s, (right s).CallsIn P) (s : S) :
    (Comp.both leftFirst left right s).CallsIn P := by
  unfold Comp.both
  split
  · exact (one s).bind fun a s => (two s).bind fun b s => trivial
  · exact (two s).bind fun b s => (one s).bind fun a s => trivial

def ResultsIn (P : A → Prop) : Comp F V S A → Prop
  | done a _ => P a
  | stuck _ => True
  | call _ _ _ k => ∀ v s, (k v s).ResultsIn P

theorem ResultsIn.bind {P : B → Prop} (m : Comp F V S A) {g : A → S → Comp F V S B}
    (rest : ∀ a s, (g a s).ResultsIn P) : (m.bind g).ResultsIn P := by
  induction m with
  | done a s => exact rest a s
  | stuck s => trivial
  | call f args s k ih => exact fun v s' => ih v s'

variable {X T : Type}

/-- Runs a computation over part of a larger state `T`: `put` writes the part
back, `get` reads it, `wedge` is the abnormal end of a stuck evaluation. -/
def run (get : T → S) (put : S → T → T) (wedge : X) (callee : F → List V → T → Answer V X T) :
    Comp F V S A → T → Answer A X T
  | done a s, t => .ret a (put s t)
  | stuck s, t => .abort wedge (put s t)
  | call f args s k, t =>
      match callee f args (put s t) with
      | .ret v t' => (k v (get t')).run get put wedge callee t'
      | .abort x t' => .abort x t'
      | .timeout t' => .timeout t'

end Comp

def Answer.state {V X T : Type} : Answer V X T → T
  | ret _ t => t
  | abort _ t => t
  | timeout t => t

/-- An answer whose states satisfy `P`, and whose abnormal end satisfies `E`. -/
def Answer.Holds {V X T : Type} (P : T → Prop) (E : X → T → Prop) : Answer V X T → Prop
  | ret _ t => P t
  | abort x t => E x t
  | timeout t => P t

theorem Answer.Holds.state {V X T : Type} {P : T → Prop} {E : X → T → Prop} {a : Answer V X T}
    (holds : a.Holds P E) (kept : ∀ x t, E x t → P t) : P a.state := by
  cases a with
  | abort x t => exact kept x t holds
  | _ => exact holds

namespace Comp

variable {F V S A X T : Type} {get : T → S} {put : S → T → T} {wedge : X}
  {callee : F → List V → T → Answer V X T}

theorem run_holds {Q : F → Prop} {P : T → Prop} {E : X → T → Prop} {c : Comp F V S A}
    (calls : c.CallsIn Q) (kept : ∀ s t, P t → P (put s t))
    (wedged : ∀ t, P t → E wedge t)
    (answers : ∀ f args t, Q f → P t → (callee f args t).Holds P E) (t : T) (start : P t) :
    (c.run get put wedge callee t).Holds P E := by
  induction c generalizing t with
  | done a s => exact kept s t start
  | stuck s => exact wedged _ (kept s t start)
  | call f args s k ih =>
    have once := answers f args (put s t) calls.1 (kept s t start)
    unfold run
    cases result : callee f args (put s t) with
    | ret v t' =>
      rw [result] at once
      exact ih v (get t') (calls.2 v (get t')) t' once
    | abort x t' =>
      rw [result] at once
      exact once
    | timeout t' =>
      rw [result] at once
      exact once

structure Lawful (get : T → S) (put : S → T → T) : Prop where
  get_put : ∀ s t, get (put s t) = s
  put_put : ∀ s s' t, put s (put s' t) = put s t
  put_get : ∀ t, put (get t) t = t

/-- What a computation makes of the part it holds does not depend on what the
larger state has in its place. -/
theorem run_put (lawful : Lawful get put) (c : Comp F V S A) (s : S) (t : T) :
    c.run get put wedge callee (put s t) = c.run get put wedge callee t := by
  cases c with
  | done a s' => simp only [run, lawful.put_put]
  | stuck s' => simp only [run, lawful.put_put]
  | call f args s' k => simp only [run, lawful.put_put]

theorem run_bind {B : Type} (lawful : Lawful get put) (c : Comp F V S A)
    (g : A → S → Comp F V S B) (t : T) :
    (c.bind g).run get put wedge callee t =
      match c.run get put wedge callee t with
      | .ret a t' => (g a (get t')).run get put wedge callee t'
      | .abort x t' => .abort x t'
      | .timeout t' => .timeout t' := by
  induction c generalizing t with
  | done a s => simp only [bind_done, run, lawful.get_put, run_put lawful]
  | stuck s => rfl
  | call f args s k ih =>
    simp only [bind_call, run]
    cases callee f args (put s t) with
    | ret v t' => exact ih v (get t') t'
    | _ => rfl

end Comp
end Aholyc.Lib
