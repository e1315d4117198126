import Mathlib.Tactic.Common

/-!
# Postconditions of computations with a state and errors

`Ends fails post run s` says how `run` ends from `s`: with a result and a state
that satisfy `post`, or with an error that satisfies `fails`. With an empty
`fails` it is total correctness, with a full one partial correctness. The rules
turn it into a condition on the parts of `run`.
-/

namespace Aholyc.Lib.Hoare

variable {σ ε α β : Type}

def Ends (fails : ε → Prop) (post : α → σ → Prop) (run : StateT σ (Except ε) α) (s : σ) : Prop :=
  match run s with
  | .ok (a, s') => post a s'
  | .error e => fails e

variable {fails : ε → Prop} {post : α → σ → Prop}

theorem ends_bind {post : β → σ → Prop} (x : StateT σ (Except ε) α)
    (f : α → StateT σ (Except ε) β) (s : σ) :
    Ends fails post (x >>= f) s ↔ Ends fails (fun a s' => Ends fails post (f a) s') x s := by
  simp only [Ends, bind, StateT.bind, Except.bind]
  cases x s with
  | error e => rfl
  | ok result => rfl

theorem ends_pure (a : α) (s : σ) :
    Ends fails post (pure a : StateT σ (Except ε) α) s ↔ post a s := Iff.rfl

theorem ends_get {post : σ → σ → Prop} (s : σ) :
    Ends fails post (get : StateT σ (Except ε) σ) s ↔ post s s := Iff.rfl

theorem ends_set {post : PUnit → σ → Prop} (s s' : σ) :
    Ends fails post (set s' : StateT σ (Except ε) PUnit) s ↔ post ⟨⟩ s' := Iff.rfl

theorem ends_modify {post : PUnit → σ → Prop} (change : σ → σ) (s : σ) :
    Ends fails post (modify change : StateT σ (Except ε) PUnit) s ↔ post ⟨⟩ (change s) := Iff.rfl

theorem ends_throw (e : ε) (s : σ) :
    Ends fails post (throw e : StateT σ (Except ε) α) s ↔ fails e := Iff.rfl

theorem ends_ite (p : Prop) [Decidable p] (x y : StateT σ (Except ε) α) (s : σ) :
    Ends fails post (if p then x else y) s ↔
      (p → Ends fails post x s) ∧ (¬p → Ends fails post y s) := by
  split
  next holds => simp [holds]
  next fails_ => simp [fails_]

variable {run : StateT σ (Except ε) α}

theorem Ends.mono {more : α → σ → Prop} {s : σ} (ends : Ends fails post run s)
    (imp : ∀ a s', post a s' → more a s') : Ends fails more run s := by
  unfold Ends at ends ⊢
  split
  next a s' ended => rw [ended] at ends; exact imp a s' ends
  next e ended => rw [ended] at ends; exact ends

theorem Ends.and {fails' : ε → Prop} {post' : α → σ → Prop} {s : σ} (ends : Ends fails post run s)
    (also : Ends fails' post' run s) :
    Ends (fun e => fails e ∧ fails' e) (fun a s' => post a s' ∧ post' a s') run s := by
  unfold Ends at ends also ⊢
  split
  next ended =>
    rw [ended] at ends also
    exact ⟨ends, also⟩
  next ended =>
    rw [ended] at ends also
    exact ⟨ends, also⟩

theorem Ends.weaken {fails' : ε → Prop} {s : σ} (ends : Ends fails post run s)
    (imp : ∀ e, fails e → fails' e) : Ends fails' post run s := by
  unfold Ends at ends ⊢
  split
  next ended =>
    rw [ended] at ends
    exact ends
  next e ended =>
    rw [ended] at ends
    exact imp e ends

theorem Ends.result {s s' : σ} {a : α} (ends : Ends fails post run s) (ended : run s = .ok (a, s')) :
    post a s' := by
  rw [Ends, ended] at ends
  exact ends

theorem Ends.error {s : σ} {e : ε} (ends : Ends fails post run s) (ended : run s = .error e) :
    fails e := by
  rw [Ends, ended] at ends
  exact ends

theorem Ends.ok {s : σ} (ends : Ends (fun _ => False) post run s) :
    ∃ a s', run s = .ok (a, s') ∧ post a s' := by
  unfold Ends at ends
  split at ends
  next a s' ended => exact ⟨a, s', ended, ends⟩
  next => exact absurd ends not_false

/-! ## Counted loops -/

/-- `for (i = start; ...; i++)` with `count` rounds. -/
def forUp (body : Int → StateT σ (Except ε) PUnit) (start : Int) :
    Nat → StateT σ (Except ε) PUnit
  | 0 => pure ⟨⟩
  | count + 1 => do
    body start
    forUp body (start + 1) count

/-- `for (i = start; ...; i--)` with `count` rounds. -/
def forDown (body : Int → StateT σ (Except ε) PUnit) (start : Int) :
    Nat → StateT σ (Except ε) PUnit
  | 0 => pure ⟨⟩
  | count + 1 => do
    body start
    forDown body (start - 1) count

variable {body : Int → StateT σ (Except ε) PUnit} {inv : σ → Prop} {start : Int} {s : σ}

theorem ends_forUp {count : Nat} (holds : inv s)
    (round : ∀ i s, start ≤ i → i < start + count → inv s →
      Ends fails (fun _ => inv) (body i) s) :
    Ends fails (fun _ => inv) (forUp body start count) s := by
  induction count generalizing start s with
  | zero => exact holds
  | succ count ih =>
    unfold forUp
    rw [ends_bind]
    have first := round start s (Int.le_refl _) (by omega) holds
    apply first.mono
    intro _ s' kept
    apply ih kept
    intro i s low high
    exact round i s (by omega) (by omega)

theorem ends_forDown {count : Nat} (holds : inv s)
    (round : ∀ i s, start - count < i → i ≤ start → inv s →
      Ends fails (fun _ => inv) (body i) s) :
    Ends fails (fun _ => inv) (forDown body start count) s := by
  induction count generalizing start s with
  | zero => exact holds
  | succ count ih =>
    unfold forDown
    rw [ends_bind]
    have first := round start s (by omega) (Int.le_refl _) holds
    apply first.mono
    intro _ s' kept
    apply ih kept
    intro i s low high
    exact round i s (by omega) (by omega)

end Aholyc.Lib.Hoare
