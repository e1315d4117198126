import Mathlib.Data.List.Nodup
import Mathlib.Tactic.Common

/-!
# Singly linked lists

A chain of elements that are linked by a function `next`, the links into it, and
what follows a link. An element is taken out by changing the link before it; what
was behind some other link is then still behind it.
-/

namespace Aholyc.Lib

variable {ι : Type}

/-- Following `next` from `start` visits the elements of `l` and ends. -/
def Chain (next : ι → Option ι) : Option ι → List ι → Prop
  | start, [] => start = none
  | start, i :: l => start = some i ∧ Chain next (next i) l

/-- A place that holds a link: the head of a list or an element of it. -/
inductive Link (ι : Type) where
  | head
  | next (i : ι)
  deriving DecidableEq

def After (l : List ι) : Link ι → List ι → Prop
  | .head, rest => rest = l
  | .next i, rest => ∃ front, l = front ++ i :: rest

/-- An element comes behind a link, unless one of them is not in the list. -/
def Behind (l : List ι) : Link ι → ι → Prop
  | .head, _ => True
  | .next i, g => i ∈ l → g ∈ l → [i, g].Sublist l

variable {next next' : ι → Option ι} {start : Option ι} {l rest : List ι} {link : Link ι}
  {i j g : ι}

namespace Chain

theorem congr (chain : Chain next start l) (same : ∀ i ∈ l, next' i = next i) :
    Chain next' start l := by
  induction l generalizing start with
  | nil => exact chain
  | cons i l ih =>
    have later := ih chain.2 fun j member => same j (List.mem_cons_of_mem _ member)
    rw [← same i List.mem_cons_self] at later
    exact ⟨chain.1, later⟩

theorem suffix {front : List ι} (chain : Chain next start (front ++ i :: rest)) :
    Chain next (next i) rest := by
  induction front generalizing start with
  | nil => exact chain.2
  | cons j front ih => exact ih chain.2

theorem after (chain : Chain next start l) (isAfter : After l (.next i) rest) :
    Chain next (next i) rest := by
  obtain ⟨front, isList⟩ := isAfter
  rw [isList] at chain
  exact chain.suffix

/-- The element before one that goes is linked to the one behind it. -/
theorem unlink {front : List ι} (chain : Chain next start (front ++ j :: i :: rest))
    (nodup : (front ++ j :: i :: rest).Nodup) (isNext : next' j = next i)
    (same : ∀ k, k ≠ j → next' k = next k) : Chain next' start (front ++ j :: rest) := by
  induction front generalizing start with
  | nil =>
    refine ⟨chain.1, ?_⟩
    rw [isNext]
    apply chain.2.2.congr
    intro k member
    apply same
    intro isSame
    rw [isSame] at member
    exact (List.nodup_cons.mp nodup).1 (List.mem_cons_of_mem _ member)
  | cons k front ih =>
    rw [List.cons_append] at nodup
    have differs : k ≠ j := by
      intro isSame
      apply (List.nodup_cons.mp nodup).1
      rw [isSame]
      exact List.mem_append_right _ List.mem_cons_self
    refine ⟨chain.1, ?_⟩
    rw [same k differs]
    exact ih chain.2 (List.nodup_cons.mp nodup).2

end Chain

namespace After

theorem step (isAfter : After l link (i :: rest)) : After l (.next i) rest := by
  cases link with
  | head => exact ⟨[], isAfter.symm⟩
  | next j =>
    obtain ⟨front, isList⟩ := isAfter
    exact ⟨front ++ [j], by rw [isList, List.append_assoc, List.singleton_append]⟩

theorem mem (isAfter : After l (.next i) rest) : i ∈ l := by
  obtain ⟨front, isList⟩ := isAfter
  rw [isList]
  exact List.mem_append_right _ List.mem_cons_self

theorem subset (isAfter : After l link rest) (member : g ∈ rest) : g ∈ l := by
  cases link with
  | head => exact isAfter ▸ member
  | next j =>
    obtain ⟨front, isList⟩ := isAfter
    rw [isList]
    exact List.mem_append_right _ (List.mem_cons_of_mem _ member)

theorem exists_of_mem (member : i ∈ l) : ∃ rest, After l (.next i) rest := by
  obtain ⟨front, rest, isList⟩ := List.append_of_mem member
  exact ⟨rest, front, isList⟩

end After

namespace Behind

/-- An element behind a link is in what follows the link. -/
theorem mem_rest (behind : Behind l link g) (isAfter : After l link rest) (nodup : l.Nodup)
    (member : g ∈ l) : g ∈ rest := by
  cases link with
  | head => exact isAfter ▸ member
  | next i =>
    have ordered := behind isAfter.mem member
    obtain ⟨front, isList⟩ := isAfter
    rw [isList] at ordered nodup
    clear isList member behind
    induction front with
    | nil =>
      have later := List.cons_sublist_cons.mp ordered
      exact List.singleton_sublist.mp later
    | cons j front ih =>
      rw [List.cons_append] at ordered nodup
      have differs : i ≠ j := by
        intro same
        apply (List.nodup_cons.mp nodup).1
        rw [← same]
        exact List.mem_append_right _ List.mem_cons_self
      exact ih (List.nodup_cons.mp nodup).2 (ordered.of_cons_of_ne differs)

theorem of_rest (isAfter : After l link rest) (inRest : g ∈ l → g ∈ rest) :
    Behind l link g := by
  cases link with
  | head => trivial
  | next i =>
    intro _ member
    obtain ⟨front, isList⟩ := isAfter
    rw [isList]
    apply List.Sublist.trans _ (List.sublist_append_right front _)
    exact List.cons_sublist_cons.mpr (List.singleton_sublist.mpr (inRest member))

/-- The next link: an element that is behind the link and not the one it is to. -/
theorem step (behind : Behind l link g) (isAfter : After l link (i :: rest)) (nodup : l.Nodup)
    (other : g ≠ i) : Behind l (.next i) g := by
  apply of_rest isAfter.step
  intro member
  exact List.mem_of_ne_of_mem other (behind.mem_rest isAfter nodup member)

theorem cons (behind : Behind l link g) (fresh : link ≠ .next i) (fresh' : g ≠ i) :
    Behind (i :: l) link g := by
  cases link with
  | head => trivial
  | next j =>
    intro member member'
    have differs : j ≠ i := by
      intro same
      rw [same] at fresh
      exact fresh rfl
    have ordered := behind (List.mem_of_ne_of_mem differs member)
      (List.mem_of_ne_of_mem fresh' member')
    exact ordered.cons i

theorem erase [DecidableEq ι] (behind : Behind l link g) (nodup : l.Nodup) :
    Behind (l.erase i) link g := by
  cases link with
  | head => trivial
  | next j =>
    intro member member'
    have ordered := behind (List.mem_of_mem_erase member) (List.mem_of_mem_erase member')
    have differs := (nodup.mem_erase_iff.mp member).1
    have differs' := (nodup.mem_erase_iff.mp member').1
    rw [nodup.erase_eq_filter]
    have kept := ordered.filter (· != i)
    simpa [differs, differs'] using kept

end Behind

end Aholyc.Lib
