import Mathlib.Data.List.Forall2
import Mathlib.Tactic.Common

/-!
# Texts in two codes

A code has one word for each of its values, and reads the word that a text
begins with. A text is recoded by reading its values and writing their words in
another code.
-/

namespace Aholyc.Lib

variable {α β : Type}

structure PrefixCode (α β : Type) where
  encode : α → Option (List β)
  decode : List β → Option (Nat × α)
  exact : ∀ {data size value}, decode data = some (size, value) ↔
    ∃ word rest, data = word ++ rest ∧ encode value = some word ∧ word.length = size
  nonempty : ∀ {value word}, encode value = some word → word ≠ []

namespace PrefixCode

def Words (code : PrefixCode α β) (values : List α) (words : List (List β)) : Prop :=
  List.Forall₂ (fun value word => code.encode value = some word) values words

variable {value : α} {data : List β}

theorem decode_encode (code : PrefixCode α β) {word : List β}
    (isWord : code.encode value = some word) (rest : List β) :
    code.decode (word ++ rest) = some (word.length, value) :=
  code.exact.mpr ⟨word, rest, rfl, isWord, rfl⟩

theorem decode_nil (code : PrefixCode α β) : code.decode [] = none := by
  cases read : code.decode [] with
  | none => rfl
  | some found =>
    obtain ⟨word, rest, empty, isWord, _⟩ := code.exact.mp read
    exact absurd (List.append_eq_nil_iff.mp empty.symm).1 (code.nonempty isWord)

theorem decode_positive (code : PrefixCode α β) {size : Nat}
    (read : code.decode data = some (size, value)) : 0 < size := by
  obtain ⟨word, rest, _, isWord, isSize⟩ := code.exact.mp read
  rw [← isSize]
  exact List.length_pos_of_ne_nil (code.nonempty isWord)

/-- The words in the code `target` of the values of a text in the code
`source`, up to the first that has none, and whether there is no such. -/
def recode (source target : PrefixCode α β) (data : List β) : List (List β) × Bool :=
  match data with
  | [] => ([], true)
  | first :: rest =>
    match _read : source.decode (first :: rest) with
    | none => ([], false)
    | some (size, value) =>
      match target.encode value with
      | none => ([], false)
      | some word =>
        let others := recode source target ((first :: rest).drop size)
        (word :: others.1, others.2)
termination_by data.length
decreasing_by
  have positive := source.decode_positive _read
  simp only [List.length_drop, List.length_cons]
  omega

variable {source target : PrefixCode α β}

theorem recode_nil : recode source target [] = ([], true) := by
  unfold recode
  rfl

theorem recode_read {size : Nat} {word : List β} (read : source.decode data = some (size, value))
    (isWord : target.encode value = some word) :
    recode source target data = (word :: (recode source target (data.drop size)).1,
      (recode source target (data.drop size)).2) := by
  cases data with
  | nil =>
    rw [source.decode_nil] at read
    cases read
  | cons first rest =>
    conv_lhs => unfold recode
    split
    next failed =>
      rw [read] at failed
      cases failed
    next found =>
      rw [read] at found
      cases found
      rw [isWord]

theorem recode_stop (notNil : data ≠ [])
    (stops : ∀ size value, source.decode data = some (size, value) → target.encode value = none) :
    recode source target data = ([], false) := by
  cases data with
  | nil => exact absurd rfl notNil
  | cons first rest =>
    unfold recode
    split
    · rfl
    next found => rw [stops _ _ found]

theorem recode_words {values : List α} {words targets : List (List β)}
    (isSource : source.Words values words) (isTarget : target.Words values targets) :
    recode source target words.flatten = (targets, true) := by
  induction isSource generalizing targets with
  | nil =>
    cases isTarget
    exact recode_nil
  | cons isWord _ ih =>
    cases isTarget with
    | cons isWord' isTarget =>
      rw [List.flatten_cons, recode_read (source.decode_encode isWord _) isWord',
        List.drop_left, ih isTarget]

theorem recode_true (whole : (recode source target data).2 = true) :
    ∃ values words, source.Words values words ∧ words.flatten = data ∧
      target.Words values (recode source target data).1 := by
  induction isLength : data.length using Nat.strongRecOn generalizing data with
  | _ n ih =>
    by_cases isNil : data = []
    · rw [isNil, recode_nil]
      exact ⟨[], [], .nil, rfl, .nil⟩
    by_cases goesOn : ∃ size value word, source.decode data = some (size, value) ∧
        target.encode value = some word
    · obtain ⟨size, value, word, read, isWord⟩ := goesOn
      obtain ⟨sourceWord, rest, isData, isSourceWord, isSize⟩ := source.exact.mp read
      have same := recode_read read isWord
      have isRest : data.drop size = rest := by
        rw [isData, ← isSize, List.drop_left]
      rw [isRest] at same
      rw [same] at whole
      have positive := List.length_pos_of_ne_nil (source.nonempty isSourceWord)
      have less : rest.length < n := by
        rw [← isLength, isData, List.length_append]
        omega
      obtain ⟨values, words, isSource, isText, isTarget⟩ := ih rest.length less whole rfl
      refine ⟨value :: values, sourceWord :: words, .cons isSourceWord isSource, ?_, ?_⟩
      · rw [List.flatten_cons, isText, isData]
      · rw [same]
        exact .cons isWord isTarget
    · rw [recode_stop isNil] at whole
      · cases whole
      · intro size value read
        cases encoded : target.encode value with
        | none => rfl
        | some word => exact absurd ⟨size, value, word, read, encoded⟩ goesOn

def fitting (capacity : Nat) : List (List β) → List (List β)
  | [] => []
  | word :: words =>
    if word.length ≤ capacity then word :: fitting (capacity - word.length) words else []

theorem fitting_length (capacity : Nat) (words : List (List β)) :
    (fitting capacity words).flatten.length ≤ capacity := by
  induction words generalizing capacity with
  | nil => exact Nat.zero_le _
  | cons word words ih =>
    unfold fitting
    split
    next fits =>
      have others := ih (capacity - word.length)
      rw [List.flatten_cons, List.length_append]
      omega
    next => exact Nat.zero_le _

theorem fitting_longest (capacity : Nat) (words : List (List β)) :
    ∃ count ≤ words.length, fitting capacity words = words.take count ∧
      (count < words.length → capacity < (words.take (count + 1)).flatten.length) := by
  induction words generalizing capacity with
  | nil => exact ⟨0, Nat.le_refl 0, rfl, fun less => absurd less (Nat.lt_irrefl 0)⟩
  | cons word words ih =>
    by_cases fits : word.length ≤ capacity
    · obtain ⟨count, le, same, longest⟩ := ih (capacity - word.length)
      refine ⟨count + 1, Nat.succ_le_succ le, ?_, ?_⟩
      · rw [fitting, if_pos fits, same, List.take_succ_cons]
      · intro less
        have more := longest (Nat.lt_of_succ_lt_succ less)
        rw [List.take_succ_cons, List.flatten_cons, List.length_append]
        omega
    · refine ⟨0, Nat.zero_le _, ?_, ?_⟩
      · rw [fitting, if_neg fits, List.take_zero]
      · intro _
        rw [List.take_succ_cons, List.take_zero, List.flatten_cons, List.flatten_nil,
          List.append_nil]
        omega

end PrefixCode

end Aholyc.Lib
