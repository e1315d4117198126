import Mathlib.Data.List.Induction
import Mathlib.Data.List.Nodup
import Mathlib.Tactic.Common

/-!
# Lists of entries with dead ones

A map kept as a list of entries. A key that has an entry is bound in place, another one in
front of the list. An entry is removed by giving it the dead key, which is never looked for.
-/

namespace Aholyc.Lib

structure Binding (κ β : Type) where
  key : κ
  value : β
  deriving DecidableEq, Repr

section

variable {κ β : Type} [DecidableEq κ]

def findKey (table : List (Binding κ β)) (k : κ) : Option (Binding κ β) :=
  table.find? fun e => e.key == k

def replace (k : κ) (b : β) : List (Binding κ β) → List (Binding κ β)
  | [] => []
  | e :: table => if e.key = k then ⟨k, b⟩ :: table else e :: replace k b table

def put (k : κ) (b : β) (table : List (Binding κ β)) : List (Binding κ β) :=
  if (findKey table k).isSome then replace k b table else ⟨k, b⟩ :: table

def kill (dead k : κ) : List (Binding κ β) → List (Binding κ β)
  | [] => []
  | e :: table => if e.key = k then ⟨dead, e.value⟩ :: table else e :: kill dead k table

def liveKeys (dead : κ) (table : List (Binding κ β)) : List κ :=
  (table.map Binding.key).filter (· != dead)

variable {k k' dead : κ} {b : β} {table : List (Binding κ β)}

theorem findKey_cons (e : Binding κ β) (table : List (Binding κ β)) (k : κ) :
    findKey (e :: table) k = if e.key = k then some e else findKey table k := by
  unfold findKey
  rw [List.find?_cons]
  by_cases same : e.key = k
  · rw [if_pos same, beq_iff_eq.mpr same]
  · rw [if_neg same, beq_eq_false_iff_ne.mpr same]

theorem findKey_none : findKey table k = none ↔ k ∉ table.map Binding.key := by
  unfold findKey
  rw [List.find?_eq_none, List.mem_map]
  constructor
  · intro none member
    obtain ⟨e, isEntry, same⟩ := member
    exact none e isEntry (beq_iff_eq.mpr same)
  · intro absent e isEntry same
    exact absent ⟨e, isEntry, beq_iff_eq.mp same⟩

/-! ## Binding a key -/

theorem findKey_replace (found : (findKey table k).isSome) :
    findKey (replace k b table) k = some ⟨k, b⟩ := by
  induction table with
  | nil => cases found
  | cons e table ih =>
    unfold replace
    split
    · rw [findKey_cons, if_pos rfl]
    · next other =>
      rw [findKey_cons, if_neg other] at found
      rw [findKey_cons, if_neg other]
      exact ih found

theorem findKey_replace_other (other : k' ≠ k) :
    findKey (replace k b table) k' = findKey table k' := by
  induction table with
  | nil => rfl
  | cons e table ih =>
    unfold replace
    split
    · next same => rw [findKey_cons, findKey_cons, if_neg other.symm, if_neg (same ▸ other.symm)]
    · rw [findKey_cons, findKey_cons, ih]

theorem replace_keys (k : κ) (b : β) (table : List (Binding κ β)) :
    (replace k b table).map Binding.key = table.map Binding.key := by
  induction table with
  | nil => rfl
  | cons e table ih =>
    unfold replace
    split
    · next same =>
      rw [List.map_cons, List.map_cons, same]
    · rw [List.map_cons, List.map_cons, ih]

theorem findKey_put (k : κ) (b : β) (table : List (Binding κ β)) :
    findKey (put k b table) k = some ⟨k, b⟩ := by
  unfold put
  split
  · next found => exact findKey_replace found
  · rw [findKey_cons, if_pos rfl]

theorem findKey_put_other (other : k' ≠ k) : findKey (put k b table) k' = findKey table k' := by
  unfold put
  split
  · exact findKey_replace_other other
  · rw [findKey_cons, if_neg other.symm]

theorem replace_first {e : Binding κ β} (same : e.key = k) :
    replace k b (e :: table) = ⟨k, b⟩ :: table := if_pos same

theorem replace_later {e : Binding κ β} (other : e.key ≠ k) :
    replace k b (e :: table) = e :: replace k b table := if_neg other

theorem replace_replace (k : κ) (a b : β) (table : List (Binding κ β)) :
    replace k b (replace k a table) = replace k b table := by
  induction table with
  | nil => rfl
  | cons e table ih =>
    by_cases same : e.key = k
    · rw [replace_first same, replace_first same]
      exact replace_first rfl
    · rw [replace_later same, replace_later same, replace_later same, ih]

theorem put_put (k : κ) (a b : β) (table : List (Binding κ β)) :
    put k b (put k a table) = put k b table := by
  have found : (findKey (put k a table) k).isSome := by
    rw [findKey_put]
    rfl
  have again : put k b (put k a table) = replace k b (put k a table) := if_pos found
  rw [again]
  unfold put
  split
  · exact replace_replace k a b table
  · exact replace_first rfl

theorem put_live (nodup : (liveKeys dead table).Nodup) : (liveKeys dead (put k b table)).Nodup := by
  unfold put
  split
  · unfold liveKeys
    rw [replace_keys]
    exact nodup
  next absent =>
  unfold liveKeys at nodup ⊢
  rw [List.map_cons, List.filter_cons]
  split
  · apply List.Nodup.cons _ nodup
    intro member
    rw [Option.not_isSome_iff_eq_none, findKey_none] at absent
    exact absent (List.mem_filter.mp member).1
  · exact nodup

/-! ## Removing a key -/

theorem findKey_kill_other (other : k' ≠ k) (live : k' ≠ dead) :
    findKey (kill dead k table) k' = findKey table k' := by
  induction table with
  | nil => rfl
  | cons e table ih =>
    unfold kill
    split
    · next same => rw [findKey_cons, findKey_cons, if_neg live.symm, if_neg (same ▸ other.symm)]
    · rw [findKey_cons, findKey_cons, ih]

theorem kill_keys (k : κ) (table : List (Binding κ β)) :
    (liveKeys dead (kill dead k table)).Sublist (liveKeys dead table) := by
  induction table with
  | nil => exact List.Sublist.refl _
  | cons e table ih =>
    unfold kill
    split
    · unfold liveKeys
      rw [List.map_cons, List.map_cons, List.filter_cons_of_neg (by simp), List.filter_cons]
      split
      · exact List.sublist_cons_self _ _
      · exact List.Sublist.refl _
    · unfold liveKeys at ih ⊢
      rw [List.map_cons, List.map_cons, List.filter_cons, List.filter_cons]
      split
      · exact ih.cons_cons _
      · exact ih

theorem findKey_kill (live : k ≠ dead) (nodup : (liveKeys dead table).Nodup) :
    findKey (kill dead k table) k = none := by
  induction table with
  | nil => rfl
  | cons e table ih =>
    unfold liveKeys at nodup
    rw [List.map_cons, List.filter_cons] at nodup
    unfold kill
    split
    · next same =>
      rw [same, if_pos (bne_iff_ne.mpr live), List.nodup_cons] at nodup
      rw [findKey_cons, if_neg live.symm, findKey_none]
      intro member
      exact nodup.1 (List.mem_filter.mpr ⟨member, bne_iff_ne.mpr live⟩)
    · next other =>
      rw [findKey_cons, if_neg other]
      apply ih
      split at nodup
      · exact nodup.of_cons
      · exact nodup

/-! ## Changes one after another -/

inductive Change (κ β : Type) where
  | bind (k : κ) (b : β)
  | unbind (k : κ)

def Change.key : Change κ β → κ
  | .bind k _ => k
  | .unbind k => k

def Change.apply (dead : κ) (table : List (Binding κ β)) : Change κ β → List (Binding κ β)
  | .bind k b => put k b table
  | .unbind k => kill dead k table

theorem apply_live (change : Change κ β) (nodup : (liveKeys dead table).Nodup) :
    (liveKeys dead (change.apply dead table)).Nodup := by
  cases change with
  | bind k b => exact put_live nodup
  | unbind k => exact nodup.sublist (kill_keys k table)

theorem findKey_apply_other (change : Change κ β) (other : k ≠ change.key) (live : k ≠ dead) :
    findKey (change.apply dead table) k = findKey table k := by
  cases change with
  | bind k' b => exact findKey_put_other other
  | unbind k' => exact findKey_kill_other other live

def Latest (changes : List (Change κ β)) (k : κ) (b : β) : Prop :=
  ∃ front back, changes = front ++ .bind k b :: back ∧ ∀ change ∈ back, change.key ≠ k

omit [DecidableEq κ] in
theorem latest_concat {changes : List (Change κ β)} {change : Change κ β} :
    Latest (changes ++ [change]) k b ↔
      change = .bind k b ∨ change.key ≠ k ∧ Latest changes k b := by
  constructor
  · intro latest
    obtain ⟨front, back, split, later⟩ := latest
    rcases List.eq_nil_or_concat back with empty | more
    · rw [empty] at split
      have ends := List.append_inj_right' split rfl
      injection ends with same _
      exact .inl same
    · obtain ⟨back', last, isBack⟩ := more
      rw [List.concat_eq_append] at isBack
      rw [isBack, ← List.cons_append, ← List.append_assoc] at split
      have same := List.append_inj_right' split rfl
      have fronts := List.append_inj_left' split rfl
      injection same with same _
      rw [isBack] at later
      refine .inr ⟨?_, front, back', fronts, ?_⟩
      · rw [same]
        exact later last (List.mem_append_right _ (List.mem_singleton_self _))
      · intro change member
        exact later change (List.mem_append_left _ member)
  · intro last
    rcases last with same | older
    · exact ⟨changes, [], by rw [same], List.forall_mem_nil _⟩
    · obtain ⟨other, front, back, split, later⟩ := older
      refine ⟨front, back ++ [change], by rw [split, List.append_assoc, List.cons_append], ?_⟩
      rw [List.forall_mem_append, List.forall_mem_singleton]
      exact ⟨later, other⟩

/-- The table behind a sequence of changes: one entry for each live key, and the value of a key
is that of its latest change. -/
theorem changes_table (dead : κ) (changes : List (Change κ β)) :
    (liveKeys dead (changes.foldl (Change.apply dead) [])).Nodup ∧
      ∀ k b, k ≠ dead →
        (findKey (changes.foldl (Change.apply dead) []) k = some ⟨k, b⟩ ↔ Latest changes k b) := by
  induction changes using List.reverseRecOn with
  | nil =>
    refine ⟨List.nodup_nil, ?_⟩
    intro k b _
    constructor
    · intro found
      cases found
    · intro latest
      obtain ⟨front, back, split, _⟩ := latest
      exact absurd split.symm (List.append_ne_nil_of_right_ne_nil _ (List.cons_ne_nil _ _))
  | append_singleton changes change ih =>
    obtain ⟨nodup, latest⟩ := ih
    rw [List.foldl_append]
    refine ⟨apply_live change nodup, ?_⟩
    intro k b live
    rw [latest_concat]
    by_cases same : change.key = k
    · cases change with
      | bind k' b' =>
        change k' = k at same
        rw [same]
        show findKey (put k b' _) k = _ ↔ _
        rw [findKey_put]
        constructor
        · intro equal
          injection equal with equal
          injection equal with _ equal
          exact .inl (by rw [equal])
        · intro last
          rcases last with equal | older
          · injection equal with _ equal
            rw [equal]
          · exact absurd rfl older.1
      | unbind k' =>
        change k' = k at same
        rw [same]
        show findKey (kill dead k _) k = _ ↔ _
        rw [findKey_kill live nodup]
        constructor
        · intro found
          cases found
        · intro last
          rcases last with equal | older
          · cases equal
          · exact absurd rfl older.1
    · show findKey (change.apply dead _) k = _ ↔ _
      rw [findKey_apply_other change (Ne.symm same) live, latest k b live]
      constructor
      · intro older
        exact .inr ⟨same, older⟩
      · intro last
        rcases last with equal | older
        · rw [equal] at same
          exact absurd rfl same
        · exact older.2

end

end Aholyc.Lib
