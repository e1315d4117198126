import Mathlib.Tactic.Common

/-!
# Programs over operations and scopes

A program is a tree of operations on a state that it does not see, and of scopes
around parts of it. A handler carries out the operations; any of them can fail, and
then nothing that follows takes place, the ends of the scopes included. Two rules
are about every program: one for an invariant, one for two runs that differ in what
the program cannot observe.
-/

namespace Aholyc.Lib

inductive Prog (Op : Type → Type 1) (Scope : Type) : Type → Type 1 where
  | pure {α : Type} (value : α) : Prog Op Scope α
  | bind {α β : Type} (first : Prog Op Scope β) (next : β → Prog Op Scope α) : Prog Op Scope α
  | perform {α : Type} (op : Op α) : Prog Op Scope α
  | within {α : Type} (scope : Scope) (body : Prog Op Scope α) : Prog Op Scope α

structure Handler (Op : Type → Type 1) (Scope E S : Type) where
  exec {α : Type} : Op α → S → Except E α × S
  enter : Scope → S → Except E Unit × S
  leave : Scope → S → S

variable {Op : Type → Type 1} {Scope E S α β : Type}

variable {allowed : {α : Type} → Op α → Prop} {program : Prog Op Scope α}

namespace Prog

instance : Monad (Prog Op Scope) where
  pure := .pure
  bind := .bind

def run (h : Handler Op Scope E S) {α : Type} : Prog Op Scope α → S → Except E α × S
  | .pure value, s => (.ok value, s)
  | .bind first next, s =>
    match first.run h s with
    | (.ok value, s) => (next value).run h s
    | (.error e, s) => (.error e, s)
  | .perform op, s => h.exec op s
  | .within scope body, s =>
    match h.enter scope s with
    | (.ok (), s) =>
      match body.run h s with
      | (.ok value, s) => (.ok value, h.leave scope s)
      | (.error e, s) => (.error e, s)
    | (.error e, s) => (.error e, s)

def Only (allowed : {α : Type} → Op α → Prop) {α : Type} : Prog Op Scope α → Prop
  | .pure _ => True
  | .bind first next => first.Only allowed ∧ ∀ value, (next value).Only allowed
  | .perform op => allowed op
  | .within _ body => body.Only allowed

theorem Only.mono {more : {α : Type} → Op α → Prop}
    (weaker : ∀ {α : Type} (op : Op α), allowed op → more op) (only : program.Only allowed) :
    program.Only more := by
  induction program with
  | pure value => trivial
  | bind first next first_ih next_ih => exact ⟨first_ih only.1, fun v => next_ih v (only.2 v)⟩
  | perform op => exact weaker op only
  | within scope body ih => exact ih only

theorem Only.and {also : {α : Type} → Op α → Prop} (only : program.Only allowed)
    (only' : program.Only also) : program.Only fun op => allowed op ∧ also op := by
  induction program with
  | pure value => trivial
  | bind first next first_ih next_ih =>
    exact ⟨first_ih only.1 only'.1, fun v => next_ih v (only.2 v) (only'.2 v)⟩
  | perform op => exact ⟨only, only'⟩
  | within scope body ih => exact ih only only'

theorem only_any (program : Prog Op Scope α) : program.Only fun _ => True := by
  induction program with
  | pure value => trivial
  | bind first next first_ih next_ih => exact ⟨first_ih, next_ih⟩
  | perform op => trivial
  | within scope body ih => exact ih

@[simp] theorem run_bind (h : Handler Op Scope E S) (first : Prog Op Scope β)
    (next : β → Prog Op Scope α) (s : S) :
    (first >>= next).run h s = match first.run h s with
      | (.ok value, s) => (next value).run h s
      | (.error e, s) => (.error e, s) := by
  change (Prog.bind first next).run h s = _
  rw [Prog.run]

@[simp] theorem run_pure (h : Handler Op Scope E S) (value : α) (s : S) :
    (pure value : Prog Op Scope α).run h s = (.ok value, s) := rfl

@[simp] theorem run_perform (h : Handler Op Scope E S) (op : Op α) (s : S) :
    (Prog.perform op : Prog Op Scope α).run h s = h.exec op s := rfl

end Prog

namespace Handler

variable (h : Handler Op Scope E S)

/-! ## Invariants -/

/-- An invariant with the scopes that are open, the innermost one first, and what holds after a
failure. -/
structure Keeps (inv : List Scope → S → Prop) (failed : E → S → Prop) : Prop where
  exec_ok {α : Type} {op : Op α} {scopes : List Scope} {s s' : S} {value : α}
    (holds : inv scopes s) (ran : h.exec op s = (.ok value, s')) : inv scopes s'
  exec_error {α : Type} {op : Op α} {scopes : List Scope} {s s' : S} {e : E}
    (holds : inv scopes s) (ran : h.exec op s = (.error e, s')) : failed e s'
  enter_ok {scope : Scope} {scopes : List Scope} {s s' : S}
    (holds : inv scopes s) (ran : h.enter scope s = (.ok (), s')) : inv (scope :: scopes) s'
  enter_error {scope : Scope} {scopes : List Scope} {s s' : S} {e : E}
    (holds : inv scopes s) (ran : h.enter scope s = (.error e, s')) : failed e s'
  leave {scope : Scope} {scopes : List Scope} {s : S}
    (holds : inv (scope :: scopes) s) : inv scopes (h.leave scope s)

variable {h}

def After (inv : S → Prop) (failed : E → S → Prop) : Except E α × S → Prop
  | (.ok _, s) => inv s
  | (.error e, s) => failed e s

theorem Keeps.run {inv : List Scope → S → Prop} {failed : E → S → Prop}
    (keeps : h.Keeps inv failed) (program : Prog Op Scope α) {scopes : List Scope} {s : S} (holds : inv scopes s) :
    After (inv scopes) failed (program.run h s) := by
  induction program generalizing scopes s with
  | pure value => exact holds
  | bind first next first_ih next_ih =>
    have first_ends := first_ih holds
    rw [Prog.run]
    generalize first.run h s = result at first_ends
    obtain ⟨answer, s'⟩ := result
    cases answer with
    | ok value => exact next_ih value first_ends
    | error e => exact first_ends
  | perform op =>
    rw [Prog.run]
    cases ran : h.exec op s with
    | mk answer s' =>
      cases answer with
      | ok value => exact keeps.exec_ok holds ran
      | error e => exact keeps.exec_error holds ran
  | within scope body ih =>
    rw [Prog.run]
    cases ran : h.enter scope s with
    | mk answer s' =>
      cases answer with
      | ok value =>
        have body_ends := ih (keeps.enter_ok holds ran)
        dsimp only
        generalize body.run h s' = result at body_ends
        obtain ⟨answer, s''⟩ := result
        cases answer with
        | ok value => exact keeps.leave body_ends
        | error e => exact body_ends
      | error e => exact keeps.enter_error holds ran

/-! ## Two runs -/

def Agree (alike : S → S → Prop) (one two : Except E α × S) : Prop :=
  one.1 = two.1 ∧ alike one.2 two.2

variable (h) in
/-- Such operations do not tell states apart that are alike. -/
structure Blind (alike : S → S → Prop) (allowed : {α : Type} → Op α → Prop) : Prop where
  exec {α : Type} {op : Op α} {s t : S} (isAllowed : allowed op) (same : alike s t) :
    Agree alike (h.exec op s) (h.exec op t)
  enter {scope : Scope} {s t : S} (same : alike s t) :
    Agree alike (h.enter scope s) (h.enter scope t)
  leave {scope : Scope} {s t : S} (same : alike s t) :
    alike (h.leave scope s) (h.leave scope t)

theorem Blind.run {alike : S → S → Prop} (blind : h.Blind alike allowed)
    (only : program.Only allowed) {s t : S} (same : alike s t) :
    Agree alike (program.run h s) (program.run h t) := by
  induction program generalizing s t with
  | pure value => exact ⟨rfl, same⟩
  | bind first next first_ih next_ih =>
    have first_same := first_ih only.1 same
    rw [Prog.run, Prog.run]
    generalize first.run h s = one at first_same
    generalize first.run h t = two at first_same
    obtain ⟨answer, s'⟩ := one
    obtain ⟨answer', t'⟩ := two
    cases first_same.1
    cases answer with
    | ok value => exact next_ih value (only.2 value) first_same.2
    | error e => exact ⟨rfl, first_same.2⟩
  | perform op => exact blind.exec only same
  | within scope body ih =>
    have enter_same : Agree alike (h.enter scope s) (h.enter scope t) := blind.enter same
    rw [Prog.run, Prog.run]
    generalize h.enter scope s = one at enter_same
    generalize h.enter scope t = two at enter_same
    obtain ⟨answer, s'⟩ := one
    obtain ⟨answer', t'⟩ := two
    cases enter_same.1
    cases answer with
    | ok value =>
      have body_same := ih only enter_same.2
      dsimp only
      generalize body.run h s' = one at body_same
      generalize body.run h t' = two at body_same
      obtain ⟨answer, s''⟩ := one
      obtain ⟨answer', t''⟩ := two
      cases body_same.1
      cases answer with
      | ok value => exact ⟨rfl, blind.leave body_same.2⟩
      | error e => exact ⟨rfl, body_same.2⟩
    | error e => exact ⟨rfl, enter_same.2⟩

end Handler

end Aholyc.Lib
