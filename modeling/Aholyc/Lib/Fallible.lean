import Mathlib.Data.List.Forall2
import Mathlib.Tactic.Common

/-!
# Computations that may fail

What an `Except` computation that ends well has gone through, and in which ways a computation
can end.
-/

namespace Aholyc.Lib

variable {ε α β : Type}

theorem bind_ok_iff {c : Except ε α} {next : α → Except ε β} {b : β} :
    c >>= next = .ok b ↔ ∃ a, c = .ok a ∧ next a = .ok b := by
  cases c with
  | error e =>
    constructor
    · intro ended
      cases ended
    · intro ended
      obtain ⟨_, ended, _⟩ := ended
      cases ended
  | ok a =>
    constructor
    · intro ended
      exact ⟨a, rfl, ended⟩
    · intro ended
      obtain ⟨_, same, ended⟩ := ended
      injection same with same
      rw [same]
      exact ended

variable {step : β → α → Except ε β} {s t : β} {items : List α}

/-- A fold over all items passes the state behind the first of them. -/
theorem foldlM_append_ok {front back : List α} :
    (front ++ back).foldlM step s = .ok t ↔
      ∃ mid, front.foldlM step s = .ok mid ∧ back.foldlM step mid = .ok t := by
  rw [List.foldlM_append]
  exact bind_ok_iff

theorem foldlM_cons_ok {item : α} :
    (item :: items).foldlM step s = .ok t ↔
      ∃ mid, step s item = .ok mid ∧ items.foldlM step mid = .ok t := by
  rw [List.foldlM_cons]
  exact bind_ok_iff

theorem foldlM_concat_ok {item : α} :
    (items ++ [item]).foldlM step s = .ok t ↔
      ∃ mid, items.foldlM step s = .ok mid ∧ step mid item = .ok t := by
  rw [foldlM_append_ok]
  apply exists_congr
  intro mid
  apply and_congr_right
  intro _
  rw [foldlM_cons_ok]
  constructor
  · intro stepped
    obtain ⟨last, one, ends⟩ := stepped
    injection ends with ends
    rw [← ends]
    exact one
  · intro one
    exact ⟨t, one, rfl⟩

theorem mapM_ok_iff {f : α → Except ε β} {results : List β} :
    items.mapM f = .ok results ↔ List.Forall₂ (fun a b => f a = .ok b) items results := by
  induction items generalizing results with
  | nil =>
    rw [List.mapM_nil, List.forall₂_nil_left_iff]
    constructor
    · intro ended
      cases ended
      rfl
    · rintro rfl
      rfl
  | cons item items ih =>
    rw [List.mapM_cons, bind_ok_iff]
    constructor
    · rintro ⟨first, isFirst, rest⟩
      rw [bind_ok_iff] at rest
      obtain ⟨others, isRest, ended⟩ := rest
      cases ended
      exact .cons isFirst (ih.mp isRest)
    · intro all
      cases all with
      | @cons _ first _ others isFirst isRest =>
        refine ⟨first, isFirst, ?_⟩
        rw [bind_ok_iff]
        exact ⟨others, ih.mpr isRest, rfl⟩

theorem forall₂_getElem {R : α → β → Prop} {as : List α} {bs : List β} (all : List.Forall₂ R as bs)
    {i : Nat} {a : α} (isItem : as[i]? = some a) : ∃ b, bs[i]? = some b ∧ R a b := by
  induction all generalizing i with
  | nil => cases isItem
  | @cons first other as bs related _ ih =>
    cases i with
    | zero =>
      cases isItem
      exact ⟨other, rfl, related⟩
    | succ i => exact ih isItem

/-! ## Ways to end -/

/-- The computation fails only as `fails` says, and what it yields is `good`. -/
def Meets (fails : ε → Prop) (good : α → Prop) : Except ε α → Prop
  | .ok a => good a
  | .error e => fails e

section

variable {fails : ε → Prop} {c : Except ε α}

theorem Meets.bind {mid : α → Prop} {good : β → Prop} {next : α → Except ε β}
    (meets : Meets fails mid c) (then_ : ∀ a, mid a → Meets fails good (next a)) :
    Meets fails good (c >>= next) := by
  cases c with
  | error e => exact meets
  | ok a => exact then_ a meets

variable {good : α → Prop}

theorem Meets.mono {better : α → Prop} (meets : Meets fails good c) (imp : ∀ a, good a → better a) :
    Meets fails better c := by
  cases c with
  | error e => exact meets
  | ok a => exact imp a meets

theorem Meets.ok {a : α} (meets : Meets fails good c) (ended : c = .ok a) : good a := by
  rw [ended] at meets
  exact meets

theorem Meets.error {e : ε} (meets : Meets fails good c) (ended : c = .error e) : fails e := by
  rw [ended] at meets
  exact meets

end

end Aholyc.Lib
