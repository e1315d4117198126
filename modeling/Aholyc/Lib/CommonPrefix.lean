import Mathlib.Data.List.Infix
import Mathlib.Tactic.Common

/-!
# Common prefixes

The longest list with which two lists begin, and with which all lists of a sequence
begin. It is found with any bound on the length: what is common to the lists cut off
is the common prefix cut off.
-/

namespace Aholyc.Lib

variable {α : Type} [DecidableEq α]

def commonPrefix : List α → List α → List α
  | a :: l, b :: m => if a = b then a :: commonPrefix l m else []
  | _, _ => []

theorem prefix_commonPrefix_iff {front l m : List α} :
    front <+: commonPrefix l m ↔ front <+: l ∧ front <+: m := by
  induction l generalizing front m with
  | nil =>
    rw [commonPrefix.eq_2 _ _ (by intros; contradiction)]
    constructor
    · intro isPrefix
      rw [List.prefix_nil] at isPrefix
      rw [isPrefix]
      exact ⟨List.nil_prefix, List.nil_prefix⟩
    · intro both
      exact both.1
  | cons a l ih =>
    cases m with
    | nil =>
      rw [commonPrefix.eq_2 _ _ (by intros; contradiction)]
      constructor
      · intro isPrefix
        rw [List.prefix_nil] at isPrefix
        rw [isPrefix]
        exact ⟨List.nil_prefix, List.nil_prefix⟩
      · intro both
        exact both.2
    | cons b m =>
      rw [commonPrefix]
      cases front with
      | nil => exact ⟨fun _ => ⟨List.nil_prefix, List.nil_prefix⟩, fun _ => List.nil_prefix⟩
      | cons x front =>
        by_cases same : a = b
        · rw [if_pos same, List.cons_prefix_cons, List.cons_prefix_cons,
            List.cons_prefix_cons, ih, same]
          exact ⟨fun all => ⟨⟨all.1, all.2.1⟩, all.1, all.2.2⟩,
            fun all => ⟨all.1.1, all.1.2, all.2.2⟩⟩
        · rw [if_neg same, List.cons_prefix_cons, List.cons_prefix_cons]
          constructor
          · intro isPrefix
            exact absurd (List.prefix_nil.mp isPrefix) (List.cons_ne_nil _ _)
          · intro both
            exact absurd (both.1.1.symm.trans both.2.1) same

/-- What all lists begin with, up to a first one that is not longer. -/
def commonWith (l : List α) (lists : List (List α)) : List α := lists.foldl commonPrefix l

theorem prefix_commonWith_iff {front l : List α} {lists : List (List α)} :
    front <+: commonWith l lists ↔ front <+: l ∧ ∀ m ∈ lists, front <+: m := by
  unfold commonWith
  induction lists generalizing l with
  | nil => exact ⟨fun isPrefix => ⟨isPrefix, fun _ member => (List.not_mem_nil member).elim⟩,
      fun both => both.1⟩
  | cons m lists ih =>
    rw [List.foldl_cons, ih, prefix_commonPrefix_iff, List.forall_mem_cons, and_assoc]

theorem commonWith_prefix (l : List α) (lists : List (List α)) : commonWith l lists <+: l :=
  (prefix_commonWith_iff.mp List.prefix_rfl).1

theorem commonWith_take (n : Nat) (l : List α) (lists : List (List α)) :
    commonWith (l.take n) lists = (commonWith l lists).take n := by
  apply List.IsPrefix.eq_of_length_le
  · rw [List.prefix_take_iff]
    have whole := prefix_commonWith_iff.mp (List.prefix_rfl (l := commonWith (l.take n) lists))
    refine ⟨prefix_commonWith_iff.mpr ⟨whole.1.trans (List.take_prefix _ _), whole.2⟩, ?_⟩
    have short := whole.1.length_le
    rw [List.length_take] at short
    omega
  · apply List.IsPrefix.length_le
    have whole := prefix_commonWith_iff.mp (List.prefix_rfl (l := commonWith l lists))
    rw [prefix_commonWith_iff]
    have cut := List.take_prefix n (commonWith l lists)
    refine ⟨?_, fun m member => cut.trans (whole.2 m member)⟩
    exact List.IsPrefix.take whole.1 n

end Aholyc.Lib
