import Mathlib.Data.List.Basic
import Mathlib.Logic.Function.Basic
import Mathlib.Logic.Relation
import Mathlib.Order.Basic
import Mathlib.Data.List.Perm.Basic

/-!
# In-place iteration of flags

Items carry a key; a pass walks over the items in order and raises the flag of
each item whose `demand` the current flags meet; passes repeat until one of
them changes nothing. For a monotone demand the number of passes is bounded by
the number of items, and the result is the least closed set of flags above the
start, so it does not depend on the order of the items.
-/

namespace Aholyc.Lib.Chaotic

variable {I K : Type} [DecidableEq K] (key : I → K) (demand : (K → Bool) → I → Bool)

def visit (st : (K → Bool) × Bool) (i : I) : (K → Bool) × Bool :=
  if !st.1 (key i) && demand st.1 i then (Function.update st.1 (key i) true, true) else st

def pass (items : List I) (flags : K → Bool) : (K → Bool) × Bool :=
  items.foldl (visit key demand) (flags, false)

def iterate (items : List I) : Nat → (K → Bool) → Option (K → Bool)
  | 0, _ => none
  | fuel + 1, flags =>
      if (pass key demand items flags).2 then
        iterate items fuel (pass key demand items flags).1
      else some (pass key demand items flags).1

def Closed (items : List I) (q : K → Bool) : Prop :=
  ∀ i ∈ items, demand q i = true → q (key i) = true

def open_ (items : List I) (flags : K → Bool) : Nat :=
  items.countP fun i => !flags (key i)

def Monotone : Prop :=
  ∀ p q : K → Bool, (∀ k, p k = true → q k = true) → ∀ i, demand p i = true → demand q i = true

variable {key demand}

theorem visit_raises (st : (K → Bool) × Bool) (i : I) (k : K) (up : st.1 k = true) :
    (visit key demand st i).1 k = true := by
  unfold visit
  split
  · by_cases same : k = key i
    · simp [same]
    · simpa [Function.update_of_ne same] using up
  · exact up

theorem fold_raises (items : List I) (st : (K → Bool) × Bool) (k : K) (up : st.1 k = true) :
    (items.foldl (visit key demand) st).1 k = true := by
  induction items generalizing st with
  | nil => exact up
  | cons i items ih => exact ih _ (visit_raises st i k up)

theorem fold_changed (items : List I) (flags : K → Bool) :
    (items.foldl (visit key demand) (flags, true)).2 = true := by
  induction items generalizing flags with
  | nil => rfl
  | cons i items ih =>
    simp only [List.foldl_cons, visit]
    split <;> exact ih _

/-- A pass that reports no change made none, and no item demanded one. -/
theorem pass_unchanged (items : List I) (flags : K → Bool)
    (same : (pass key demand items flags).2 = false) :
    (pass key demand items flags).1 = flags ∧ Closed key demand items flags := by
  induction items with
  | nil => exact ⟨rfl, by intro i member; cases member⟩
  | cons i items ih =>
    unfold pass at same ih ⊢
    simp only [List.foldl_cons] at same ⊢
    by_cases asks : (!flags (key i) && demand flags i) = true
    · have step : visit key demand (flags, false) i =
          (Function.update flags (key i) true, true) := by
        unfold visit
        rw [if_pos asks]
      rw [step, fold_changed] at same
      cases same
    · have step : visit key demand (flags, false) i = (flags, false) := by
        unfold visit
        rw [if_neg asks]
      rw [step] at same ⊢
      refine ⟨(ih same).1, ?_⟩
      intro j member wants
      rcases List.mem_cons.mp member with rfl | later
      · by_contra down
        exact asks (by simp [wants, down])
      · exact (ih same).2 j later wants

theorem fold_below (mono : Monotone demand) (items : List I) (q : K → Bool)
    (closed : Closed key demand items q) (st : (K → Bool) × Bool)
    (below : ∀ k, st.1 k = true → q k = true) (k : K)
    (up : (items.foldl (visit key demand) st).1 k = true) : q k = true := by
  induction items generalizing st with
  | nil => exact below k up
  | cons i items ih =>
    refine ih (fun j member => closed j (List.mem_cons_of_mem i member)) _ ?_ up
    intro k' raised
    unfold visit at raised
    split at raised
    · rename_i asks
      by_cases same : k' = key i
      · subst same
        have wants : demand st.1 i = true := by
          simp only [Bool.and_eq_true] at asks
          exact asks.2
        exact closed i List.mem_cons_self (mono st.1 q below i wants)
      · exact below k' (by simpa [Function.update_of_ne same] using raised)
    · exact below k' raised

omit [DecidableEq K] in
theorem open_le (items : List I) (p q : K → Bool) (below : ∀ k, p k = true → q k = true) :
    open_ key items q ≤ open_ key items p := by
  unfold open_
  refine List.countP_mono_left ?_
  intro i _ down
  simp only [Bool.not_eq_true'] at down ⊢
  by_contra up
  simp only [Bool.not_eq_false] at up
  rw [below _ up] at down
  cases down

/-- A pass that changes something leaves fewer flags down. -/
theorem fold_progress (items : List I) (flags : K → Bool)
    (changed : (items.foldl (visit key demand) (flags, false)).2 = true) :
    ∃ i ∈ items, flags (key i) = false ∧
      (items.foldl (visit key demand) (flags, false)).1 (key i) = true := by
  induction items with
  | nil => cases changed
  | cons i items ih =>
    simp only [List.foldl_cons] at changed ⊢
    by_cases asks : (!flags (key i) && demand flags i) = true
    · refine ⟨i, List.mem_cons_self, by simp at asks; exact asks.1, ?_⟩
      refine fold_raises items _ _ ?_
      unfold visit
      rw [if_pos asks]
      simp
    · have step : visit key demand (flags, false) i = (flags, false) := by
        unfold visit
        rw [if_neg asks]
      rw [step] at changed ⊢
      obtain ⟨j, member, down, up⟩ := ih changed
      exact ⟨j, List.mem_cons_of_mem i member, down, up⟩

omit [DecidableEq K] in
theorem open_lt (items : List I) (p q : K → Bool) (below : ∀ k, p k = true → q k = true)
    (i : I) (member : i ∈ items) (down : p (key i) = false) (up : q (key i) = true) :
    open_ key items q < open_ key items p := by
  induction items with
  | nil => cases member
  | cons j items ih =>
    unfold open_ at ih ⊢
    simp only [List.countP_cons]
    have tail : open_ key items q ≤ open_ key items p := open_le items p q below
    unfold open_ at tail
    rcases List.mem_cons.mp member with rfl | later
    · simp only [down, up, Bool.not_true, Bool.not_false, if_true, Bool.false_eq_true, if_false]
      omega
    have rest := ih later
    have head : (if (!q (key j)) = true then 1 else 0) ≤ (if (!p (key j)) = true then 1 else 0) := by
      by_cases raised : p (key j) = true
      · simp [raised, below _ raised]
      · simp only [Bool.not_eq_true] at raised
        simp only [raised, Bool.not_false, if_true]
        split <;> omega
    omega

theorem iterate_some (items : List I) (fuel : Nat) (flags : K → Bool)
    (enough : open_ key items flags < fuel) :
    ∃ r, iterate key demand items fuel flags = some r := by
  induction fuel generalizing flags with
  | zero => omega
  | succ fuel ih =>
    unfold iterate
    split
    · rename_i changed
      obtain ⟨i, member, down, up⟩ := fold_progress items flags changed
      refine ih _ ?_
      have less := open_lt items flags (pass key demand items flags).1
        (fun k raised => fold_raises items (flags, false) k raised) i member down up
      omega
    · exact ⟨_, rfl⟩

/-- The result of the iteration is closed, above the start, and below every
closed set above the start. -/
theorem iterate_least (mono : Monotone demand) (items : List I) (fuel : Nat)
    (flags r : K → Bool) (done : iterate key demand items fuel flags = some r) :
    Closed key demand items r ∧ (∀ k, flags k = true → r k = true) ∧
      ∀ q, Closed key demand items q → (∀ k, flags k = true → q k = true) →
        ∀ k, r k = true → q k = true := by
  induction fuel generalizing flags with
  | zero => cases done
  | succ fuel ih =>
    unfold iterate at done
    split at done
    · obtain ⟨closed, above, least⟩ := ih _ done
      refine ⟨closed, fun k up => above k (fold_raises items (flags, false) k up), ?_⟩
      intro q closedQ belowQ
      exact least q closedQ fun k up => fold_below mono items q closedQ (flags, false) belowQ k up
    · rename_i same
      simp only [Bool.not_eq_true] at same
      obtain ⟨eq, closed⟩ := pass_unchanged items flags same
      rw [eq] at done
      cases done
      exact ⟨closed, fun _ up => up, fun q _ belowQ => belowQ⟩

omit [DecidableEq K] in
theorem closed_perm {items items' : List I} (perm : items.Perm items') (q : K → Bool)
    (closed : Closed key demand items q) : Closed key demand items' q :=
  fun i member => closed i (perm.mem_iff.mpr member)

theorem iterate_perm (mono : Monotone demand) {items items' : List I} (perm : items.Perm items')
    (fuel fuel' : Nat) (flags r r' : K → Bool)
    (done : iterate key demand items fuel flags = some r)
    (done' : iterate key demand items' fuel' flags = some r') : r = r' := by
  obtain ⟨closed, above, least⟩ := iterate_least mono items fuel flags r done
  obtain ⟨closed', above', least'⟩ := iterate_least mono items' fuel' flags r' done'
  funext k
  apply Bool.eq_iff_iff.mpr
  constructor
  · exact least r' (closed_perm perm.symm r' closed') above' k
  · exact least' r (closed_perm perm r closed) above k

/-! ## Demands that ask for a source -/

section

variable {sources : I → List (Option K)}

/-- An item with the first key has a source with the second one. -/
def Uses (key : I → K) (sources : I → List (Option K)) (items : List I) (k k' : K) : Prop :=
  ∃ i ∈ items, key i = k ∧ some k' ∈ sources i

/-- Where an item demands one of its sources, `none` being one that is always there, the flags are
those from which a chain of uses leads to a flag of the start or to an item with `none`. -/
theorem iterate_chain (asks : ∀ q i, demand q i = (sources i).any fun source => source.elim true q)
    (items : List I) (fuel : Nat) (flags r : K → Bool)
    (done : iterate key demand items fuel flags = some r) (k : K) :
    r k = true ↔ ∃ k', Relation.ReflTransGen (Uses key sources items) k k' ∧
      (flags k' = true ∨ ∃ i ∈ items, key i = k' ∧ none ∈ sources i) := by
  have mono : Monotone demand := by
    intro p q below i asked
    rw [asks, List.any_eq_true] at asked ⊢
    obtain ⟨source, member, up⟩ := asked
    refine ⟨source, member, ?_⟩
    cases source with
    | none => rfl
    | some k => exact below k up
  obtain ⟨closed, above, least⟩ := iterate_least mono items fuel flags r done
  constructor
  · intro up
    classical
    let q : K → Bool := fun k => decide (∃ k', Relation.ReflTransGen (Uses key sources items) k k' ∧
      (flags k' = true ∨ ∃ i ∈ items, key i = k' ∧ none ∈ sources i))
    have reached : q k = true := by
      apply least q
      · intro i member asked
        rw [asks, List.any_eq_true] at asked
        obtain ⟨source, isSource, up⟩ := asked
        apply decide_eq_true
        cases source with
        | none => exact ⟨key i, .refl, .inr ⟨i, member, rfl, isSource⟩⟩
        | some k' =>
          obtain ⟨k'', chain, ends⟩ := of_decide_eq_true up
          exact ⟨k'', chain.head ⟨i, member, rfl, isSource⟩, ends⟩
      · intro k start
        exact decide_eq_true ⟨k, .refl, .inl start⟩
      · exact up
    exact of_decide_eq_true reached
  · rintro ⟨k', chain, ends⟩
    induction chain using Relation.ReflTransGen.head_induction_on with
    | refl =>
      rcases ends with start | ⟨i, member, rfl, own⟩
      · exact above k' start
      · apply closed i member
        rw [asks, List.any_eq_true]
        exact ⟨none, own, rfl⟩
    | head use _ up =>
      obtain ⟨i, member, rfl, isSource⟩ := use
      apply closed i member
      rw [asks, List.any_eq_true]
      exact ⟨_, isSource, up⟩

end

end Aholyc.Lib.Chaotic
