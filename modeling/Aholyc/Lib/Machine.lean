import Aholyc.Lib.Flow

/-!
# Flat code for structured statements

A machine given by a step function, and what it means that from some
configuration it does what an outcome of a structured statement says. The
rules follow the combinators of `Aholyc.Lib.Flow`: a construct is correct when
its parts are, with the configurations between the parts as the joints. Steps
are counted, so that a statement that runs out of fuel is matched by a run
that is at least as long as the fuel.
-/

namespace Aholyc.Lib.Machine

open Aholyc.Lib.Flow

/-- A run of the machine, with the number of its steps. -/
inductive Steps {C : Type} (step : C → Option C) : Nat → C → C → Prop where
  | refl (c) : Steps step 0 c c
  | head {n a b c} : step a = some b → Steps step n b c → Steps step (n + 1) a c

namespace Steps

variable {C : Type} {step : C → Option C} {a b c : C} {n m : Nat}

theorem one (next : step a = some b) : Steps step 1 a b :=
  .head next (.refl b)

theorem trans (first : Steps step n a b) (rest : Steps step m b c) : Steps step (n + m) a c := by
  induction first with
  | refl a => rwa [Nat.zero_add]
  | @head n a b d next _ ih =>
    rw [Nat.succ_add]
    exact .head next (ih rest)

theorem longest (run : Steps step n a b) (halt : step b = none) (run' : Steps step m a c) :
    m ≤ n ∧ (step c = none → m = n ∧ c = b) := by
  induction run generalizing m with
  | refl =>
    cases run' with
    | refl => exact ⟨Nat.le_refl 0, fun _ => ⟨rfl, rfl⟩⟩
    | head next =>
      rw [halt] at next
      cases next
  | head next _ ih =>
    cases run' with
    | refl =>
      refine ⟨Nat.zero_le _, ?_⟩
      intro halt'
      rw [halt'] at next
      cases next
    | head next' rest' =>
      rw [next] at next'
      cases next'
      obtain ⟨le, ends⟩ := ih halt rest'
      refine ⟨Nat.succ_le_succ le, ?_⟩
      intro halt'
      obtain ⟨rfl, same⟩ := ends halt'
      exact ⟨rfl, same⟩

end Steps

/-- Which configurations stand for which outcomes: `lab` for a jump, `clock`
for a run that is cut off, `dead` for an end that every outcome allows. -/
structure Ends (L V X S C : Type) where
  step : C → Option C
  lab : L → S → C → Prop
  ret : V → S → C → Prop
  abort : X → S → C → Prop
  clock : S → C → Prop
  dead : C → Prop
  ticks : ∀ l s c, lab l s c → clock s c

variable {L V X S C : Type} (E : Ends L V X S C)

/-- The configuration, reached in `n` steps, stands for the outcome; `exit` are
those of a normal end. -/
def Ends.At (fuel : Nat) (exit : S → C → Prop) (n : Nat) : Out L V X S → C → Prop
  | .next s, c => exit s c
  | .jump l s, c => E.lab l s c ∧ 0 < n
  | .ret v s, c => E.ret v s c
  | .abort x s, c => E.abort x s c
  | .timeout s, c => E.clock s c ∧ fuel ≤ n

def Reaches (fuel : Nat) (exit : S → C → Prop) (o : Out L V X S) (c : C) : Prop :=
  ∃ n c', Steps E.step n c c' ∧ (E.At fuel exit n o c' ∨ E.dead c')

/-- The same for a test, with the configurations of both its ends. -/
def TestReaches (fuel : Nat) (yes no : S → C → Prop) (q : Test X S) (c : C) : Prop :=
  ∃ n c', Steps E.step n c c' ∧
    ((match q with
      | .val true s => yes s c' ∧ 0 < n
      | .val false s => no s c' ∧ 0 < n
      | .abort x s => E.abort x s c'
      | .timeout s => E.clock s c' ∧ fuel ≤ n) ∨ E.dead c')

/-- The configurations from which a statement is run, by where it is entered. -/
def Start (start : S → C → Prop) : Entry L → S → C → Prop
  | .run => start
  | .seek l => E.lab l

/-- From its start configurations the machine does what the statement does. -/
def Correct (fuel : Nat) (has : L → Bool) (start exit : S → C → Prop)
    (f : Entry L → S → Out L V X S) : Prop :=
  ∀ e s c, e.Within has → Start E start e s c → Reaches E fuel exit (f e s) c

variable {E} {start mid exit head yes no : S → C → Prop} {fuel : Nat}

variable {o : Out L V X S} {has hasB : L → Bool} {f : Entry L → S → Out L V X S} {q : S → Test X S}

theorem Ends.At.later {n m : Nat} (more : n ≤ m) {c : C} (ends : E.At fuel exit n o c) :
    E.At fuel exit m o c := by
  cases o with
  | jump l s => exact ⟨ends.1, Nat.lt_of_lt_of_le ends.2 more⟩
  | timeout s => exact ⟨ends.1, Nat.le_trans ends.2 more⟩
  | _ => exact ends

theorem Reaches.after_steps {n : Nat} {c c' : C} (steps : Steps E.step n c c')
    (rest : Reaches E fuel exit o c') : Reaches E fuel exit o c := by
  obtain ⟨m, d, later, ends⟩ := rest
  exact ⟨n + m, d, steps.trans later, ends.imp_left (Ends.At.later (Nat.le_add_left m n))⟩

theorem Reaches.next {s : S} {c : C} (ends : exit s c) : Reaches E fuel exit (.next s) c :=
  ⟨0, c, .refl c, .inl ends⟩

theorem Reaches.less {fuel' : Nat} (less : fuel' ≤ fuel) {c : C} (reaches : Reaches E fuel exit o c) :
    Reaches E fuel' exit o c := by
  obtain ⟨n, d, steps, ends⟩ := reaches
  refine ⟨n, d, steps, ends.imp_left ?_⟩
  intro ends
  cases o with
  | timeout s => exact ⟨ends.1, Nat.le_trans less ends.2⟩
  | _ => exact ends

theorem Correct.of_start (steps : ∀ s c, start s c → ∃ n c', Steps E.step n c c' ∧ mid s c')
    (correct : Correct E fuel has mid exit f) : Correct E fuel has start exit f := by
  intro e s c within starts
  cases e with
  | seek l => exact correct (.seek l) s c within starts
  | run =>
    obtain ⟨n, c', later, middle⟩ := steps s c starts
    exact (correct .run s c' within middle).after_steps later

theorem Reaches.to_exit {c : C} (steps : ∀ s c, mid s c → ∃ n c', Steps E.step n c c' ∧ exit s c')
    (reaches : Reaches E fuel mid o c) : Reaches E fuel exit o c := by
  obtain ⟨n, d, first, ends⟩ := reaches
  rcases ends with ends | ended
  · cases o with
    | next s =>
      obtain ⟨m, d', later, last⟩ := steps s d ends
      exact ⟨n + m, d', first.trans later, .inl last⟩
    | _ => exact ⟨n, d, first, .inl ends⟩
  · exact ⟨n, d, first, .inr ended⟩

theorem Correct.to_exit (steps : ∀ s c, mid s c → ∃ n c', Steps E.step n c c' ∧ exit s c')
    (correct : Correct E fuel has start mid f) : Correct E fuel has start exit f :=
  fun e s c within starts => (correct e s c within starts).to_exit steps

theorem leaf_correct {f : S → Out L V X S} (bare : ∀ l, has l = false)
    (body : ∀ s c, start s c → Reaches E fuel exit (f s) c) :
    Correct E fuel has start exit (leaf f) := by
  intro e s c within starts
  cases e with
  | run => exact body s c starts
  | seek l =>
    have member : has l = true := within
    rw [bare l] at member
    cases member

theorem after_reaches {f : S → Out L V X S} {c : C} (first : Reaches E fuel mid o c)
    (rest : ∀ s c, mid s c → Reaches E fuel exit (f s) c) : Reaches E fuel exit (after o f) c := by
  obtain ⟨n, d, steps, ends⟩ := first
  rcases ends with ends | ended
  · cases o with
    | next s => exact (rest s d ends).after_steps steps
    | _ => exact ⟨n, d, steps, .inl ends⟩
  · exact ⟨n, d, steps, .inr ended⟩

theorem resume_reaches {b : Entry L → S → Out L V X S} {c : C} (first : Reaches E fuel mid o c)
    (rest : Correct E fuel hasB mid exit b) : Reaches E fuel exit (resume hasB b o) c := by
  obtain ⟨n, d, steps, ends⟩ := first
  rcases ends with ends | ended
  · cases o with
    | next s => exact (rest .run s d trivial ends).after_steps steps
    | jump l s =>
      simp only [resume]
      by_cases inside : hasB l = true
      · rw [if_pos inside]
        exact (rest (.seek l) s d inside ends.1).after_steps steps
      · rw [if_neg inside]
        exact ⟨n, d, steps, .inl ends⟩
    | _ => exact ⟨n, d, steps, .inl ends⟩
  · exact ⟨n, d, steps, .inr ended⟩

theorem andThen_correct {hasA : L → Bool} {a b : Entry L → S → Out L V X S}
    (first : Correct E fuel hasA start mid a) (rest : Correct E fuel hasB mid exit b) :
    Correct E fuel (fun l => hasA l || hasB l) start exit (andThen hasA hasB a b) := by
  intro e s c within starts
  cases e with
  | run => exact resume_reaches (first .run s c trivial starts) rest
  | seek l =>
    simp only [andThen]
    by_cases inside : hasA l = true
    · rw [if_pos inside]
      exact resume_reaches (first (.seek l) s c inside starts) rest
    · rw [if_neg inside]
      apply rest (.seek l) s c _ starts
      have either : (hasA l || hasB l) = true := within
      simpa [Entry.Within, inside] using either

theorem onTest_reaches {q : Test X S} {k : Bool → S → Out L V X S} {c : C}
    (test : TestReaches E fuel yes no q c)
    (isTrue : ∀ s c, yes s c → Reaches E fuel exit (k true s) c)
    (isFalse : ∀ s c, no s c → Reaches E fuel exit (k false s) c) :
    Reaches E fuel exit (onTest .abort q k) c := by
  obtain ⟨n, d, steps, ends⟩ := test
  rcases ends with ends | ended
  · cases q with
    | val b s =>
      cases b with
      | true => exact (isTrue s d ends.1).after_steps steps
      | false => exact (isFalse s d ends.1).after_steps steps
    | abort x s => exact ⟨n, d, steps, .inl ends⟩
    | timeout s => exact ⟨n, d, steps, .inl ends⟩
  · exact ⟨n, d, steps, .inr ended⟩

theorem branch_correct {hasA : L → Bool} {a b : Entry L → S → Out L V X S}
    (test : ∀ s c, start s c → TestReaches E fuel yes no (q s) c)
    (thn : Correct E fuel hasA yes exit a) (els : Correct E fuel hasB no exit b) :
    Correct E fuel (fun l => hasA l || hasB l) start exit (branch hasA .abort q a b) := by
  intro e s c within starts
  cases e with
  | run =>
    exact onTest_reaches (test s c starts) (fun s c later => thn .run s c trivial later)
      fun s c later => els .run s c trivial later
  | seek l =>
    simp only [branch]
    by_cases inside : hasA l = true
    · rw [if_pos inside]
      exact thn (.seek l) s c inside starts
    · rw [if_neg inside]
      apply els (.seek l) s c _ starts
      have either : (hasA l || hasB l) = true := within
      simpa [Entry.Within, inside] using either

/-- Every round takes a step, so the loop pays for its fuel. -/
theorem loop_reaches {body : S → Out L V X S} (ticks : ∀ s c, head s c → E.clock s c)
    (test : ∀ s c, head s c → TestReaches E fuel yes no (q s) c)
    (step : ∀ s c, yes s c → Reaches E fuel head (body s) c) (rounds : Nat) (enough : rounds ≤ fuel)
    (s : S) (c : C) (starts : head s c) : Reaches E rounds no (loop .abort q body rounds s) c := by
  induction rounds generalizing s c with
  | zero => exact ⟨0, c, .refl c, .inl ⟨ticks s c starts, Nat.le_refl 0⟩⟩
  | succ rounds ih =>
    have tested := test s c starts
    unfold loop
    generalize q s = once at tested ⊢
    obtain ⟨n, d, steps, ends⟩ := tested
    rcases ends.symm with ended | ends
    · exact ⟨n, d, steps, .inr ended⟩
    cases once with
    | abort x s' => exact ⟨n, d, steps, .inl ends⟩
    | timeout s' => exact ⟨n, d, steps, .inl ⟨ends.1, Nat.le_trans enough ends.2⟩⟩
    | val b s' =>
      cases b with
      | false => exact ⟨n, d, steps, .inl ends.1⟩
      | true =>
        have round := (step s' d ends.1).less (Nat.le_of_succ_le enough)
        have rest := after_reaches round fun s c later =>
          ih (Nat.le_of_succ_le enough) s c later
        obtain ⟨m, d', later, last⟩ := rest
        refine ⟨n + m, d', steps.trans later, last.imp_left ?_⟩
        intro last
        have positive := ends.2
        simp only [onTest, if_true]
        generalize after (body s') (loop .abort q body rounds) = o at last ⊢
        cases o with
        | jump l t => exact ⟨last.1, by omega⟩
        | timeout t =>
          have paid := last.2
          exact ⟨last.1, by omega⟩
        | _ => exact last

theorem whileLoop_correct {body : Entry L → S → Out L V X S} (ticks : ∀ s c, head s c → E.clock s c)
    (test : ∀ s c, head s c → TestReaches E fuel yes no (q s) c)
    (step : Correct E fuel has yes head body) :
    Correct E fuel has head no (whileLoop .abort q body fuel) := by
  have again := loop_reaches ticks test (fun s c => step .run s c trivial) fuel (Nat.le_refl _)
  intro e s c within starts
  cases e with
  | run => exact again s c starts
  | seek l => exact after_reaches (step (.seek l) s c within starts) again

theorem doLoop_correct {body : Entry L → S → Out L V X S} (ticks : ∀ s c, head s c → E.clock s c)
    (test : ∀ s c, head s c → TestReaches E fuel yes no (q s) c)
    (step : Correct E fuel has yes head body) :
    Correct E fuel has yes no (doLoop .abort q body fuel) := by
  intro e s c within starts
  apply after_reaches (step e s c within starts)
  exact loop_reaches ticks test (fun s c => step .run s c trivial) fuel (Nat.le_refl _)

/-- Every jump takes a step, so the region pays for its fuel. -/
theorem region_reaches (correct : Correct E fuel has start exit f) (rounds : Nat)
    (enough : rounds ≤ fuel) (e : Entry L) (s : S) (c : C) (within : e.Within has)
    (starts : Start E start e s c) : Reaches E rounds exit (region has f rounds e s) c := by
  induction rounds generalizing e s c with
  | zero =>
    obtain ⟨n, d, steps, ends⟩ := (correct e s c within starts).less enough
    refine ⟨n, d, steps, ends.imp_left ?_⟩
    intro ends
    unfold region
    generalize f e s = o at ends ⊢
    cases o with
    | jump l s' =>
      simp only
      split
      · exact ⟨E.ticks l s' d ends.1, Nat.zero_le n⟩
      · exact ends
    | _ => exact ends
  | succ rounds ih =>
    obtain ⟨n, d, steps, ends⟩ := (correct e s c within starts).less enough
    unfold region
    generalize f e s = o at ends ⊢
    rcases ends.symm with ended | ends
    · exact ⟨n, d, steps, .inr ended⟩
    cases o with
    | jump l s' =>
      simp only
      by_cases inside : has l = true
      · rw [if_pos inside]
        obtain ⟨m, d', later, last⟩ :=
          ih (Nat.le_of_succ_le enough) (.seek l) s' d inside ends.1
        refine ⟨n + m, d', steps.trans later, last.imp_left ?_⟩
        intro last
        have positive := ends.2
        generalize region has f rounds (.seek l) s' = o at last ⊢
        cases o with
        | jump l t => exact ⟨last.1, by omega⟩
        | timeout t =>
          have paid := last.2
          exact ⟨last.1, by omega⟩
        | _ => exact last
      · rw [if_neg inside]
        exact ⟨n, d, steps, .inl ends⟩
    | _ => exact ⟨n, d, steps, .inl ends⟩

theorem region_correct (correct : Correct E fuel has start exit f) :
    Correct E fuel has start exit (region has f fuel) :=
  fun e s c within starts =>
    region_reaches correct fuel (Nat.le_refl _) e s c within starts

end Aholyc.Lib.Machine
