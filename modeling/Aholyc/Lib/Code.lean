import Mathlib.Data.List.Nodup
import Mathlib.Data.List.Infix

/-!
# Flat code with labels

Where a chunk of instructions stands in a list of instructions, and where a
label of the list is found.
-/

namespace Aholyc.Lib.Code

variable {I K : Type}

def Sits (code : List I) (p : Nat) (chunk : List I) : Prop := chunk <+: code.drop p

@[simp] theorem sits_nil (code : List I) (p : Nat) : Sits code p [] := List.nil_prefix

theorem sits_cons (code : List I) (p : Nat) (i : I) (chunk : List I) :
    Sits code p (i :: chunk) ↔ code[p]? = some i ∧ Sits code (p + 1) chunk := by
  unfold Sits
  rcases Nat.lt_or_ge p code.length with inside | outside
  · rw [List.drop_eq_getElem_cons inside, List.cons_prefix_cons, List.getElem?_eq_getElem inside,
      Option.some.injEq]
    exact and_congr_left fun _ => eq_comm
  · rw [List.drop_eq_nil_of_le outside, List.getElem?_eq_none outside]
    simp

theorem sits_append (code : List I) (p : Nat) (a b : List I) :
    Sits code p (a ++ b) ↔ Sits code p a ∧ Sits code (p + a.length) b := by
  induction a generalizing p with
  | nil => simp
  | cons i a ih =>
    rw [List.cons_append, sits_cons, sits_cons, ih, and_assoc, List.length_cons]
    have position : p + 1 + a.length = p + (a.length + 1) := by omega
    rw [position]

theorem sits_self (code : List I) : Sits code 0 code := List.prefix_rfl

section Labels

variable (placed : I → Option K)

def labels (code : List I) : List K := code.filterMap placed

@[simp] theorem labels_append (a b : List I) :
    labels placed (a ++ b) = labels placed a ++ labels placed b :=
  List.filterMap_append

def find [DecidableEq K] (code : List I) (l : K) : Nat :=
  code.findIdx (fun i => placed i == some l) + 1

end Labels

variable [DecidableEq K] {placed : I → Option K}

theorem find_eq {code : List I} {p : Nat} {i : I} {l : K} (distinct : (labels placed code).Nodup)
    (here : code[p]? = some i) (label : placed i = some l) : find placed code l = p + 1 := by
  unfold find
  congr 1
  induction code generalizing p with
  | nil => simp at here
  | cons j code ih =>
    rw [List.findIdx_cons]
    cases p with
    | zero =>
      have same : j = i := by simpa using here
      simp [same, label]
    | succ p =>
      have later : code[p]? = some i := by simpa using here
      have member : l ∈ labels placed code :=
        List.mem_filterMap.mpr ⟨i, List.mem_of_getElem? later, label⟩
      cases first : placed j with
      | none =>
        have rest : (labels placed code).Nodup := by
          simpa [labels, List.filterMap_cons, first] using distinct
        simp [ih rest later]
      | some k =>
        have both : k ∉ labels placed code ∧ (labels placed code).Nodup := by
          simpa [labels, List.filterMap_cons, first] using distinct
        have other : (k == l) = false := by
          rw [beq_eq_false_iff_ne]
          rintro rfl
          exact both.1 member
        simp [other, ih both.2 later]

/-- A label that is not placed is found behind the code. -/
theorem find_absent {code : List I} {l : K} (absent : l ∉ labels placed code) :
    code[find placed code l]? = none := by
  apply List.getElem?_eq_none
  have nowhere : code.findIdx (fun i => placed i == some l) = code.length := by
    apply List.findIdx_eq_length_of_false
    intro i member
    rw [beq_eq_false_iff_ne]
    intro named
    exact absent (List.mem_filterMap.mpr ⟨i, member, named⟩)
  unfold find
  omega

end Aholyc.Lib.Code
