import Aholyc.Data.Ht
import Mathlib.Logic.Function.Basic

/-!
# The hash table is a finite map

The table holds the live keys of a map, each in one slot, and no slot on the
way to it is vacant. Every operation keeps this and answers as the map does, as
long as it gets the memory it asks for.
-/

namespace Aholyc.Ht

open Aholyc.Lib.Probing

variable {κ ν : Type}

/-! ## Indexes -/

variable {k i b : Nat} {entries : List (CHashEntry κ ν)} {key : κ} {table : CHashTable κ ν}

theorem after_eq (inside : i < 2 ^ k) : after (2 ^ k - 1) i = next (2 ^ k) i := by
  rw [after, Nat.and_two_pow_sub_one_eq_mod, next]
  split
  next atEnd => rw [atEnd, Nat.mod_self]
  next => exact Nat.mod_eq_of_lt (by omega)

theorem home_lt (hash : κ → UInt64) (k : Nat) (key : κ) : home hash (2 ^ k - 1) key < 2 ^ k := by
  rw [home, Nat.and_two_pow_sub_one_eq_mod]
  exact Nat.mod_lt _ (Nat.two_pow_pos k)

theorem i64Sub_mask {a : Nat} (small : k ≤ 64) (inA : a < 2 ^ k) (inB : b < 2 ^ k) :
    i64Sub a b &&& (2 ^ k - 1) = dist (2 ^ k) b a := by
  have le : 2 ^ k ≤ 2 ^ 64 := Nat.pow_le_pow_right (by decide) small
  rw [i64Sub, Nat.and_two_pow_sub_one_eq_mod, Nat.mod_mod_of_dvd _ (Nat.pow_dvd_pow 2 small)]
  obtain ⟨rounds, isRounds⟩ : ∃ rounds, 2 ^ 64 = 2 ^ k * rounds := Nat.pow_dvd_pow 2 small
  rcases dist_cases (2 ^ k) b a with ⟨below, way⟩ | ⟨above, way⟩
  · have eq : a + 2 ^ 64 - b = (a - b) + 2 ^ k * rounds := by omega
    rw [eq, Nat.add_mul_mod_self_left, way]
    exact Nat.mod_eq_of_lt (by omega)
  have positive : 0 < rounds := by
    apply Nat.pos_of_ne_zero
    rintro rfl
    omega
  obtain ⟨fewer, rfl⟩ := Nat.exists_eq_succ_of_ne_zero (Nat.ne_of_gt positive)
  have eq : a + 2 ^ 64 - b = (a + 2 ^ k - b) + 2 ^ k * fewer := by
    rw [isRounds, Nat.succ_eq_add_one, Nat.mul_add]
    omega
  rw [eq, Nat.add_mul_mod_self_left, way]
  exact Nat.mod_eq_of_lt (by omega)

/-! ## The invariant -/

section
variable (hash : κ → UInt64)

def homeOf (capacity : Nat) (entry : CHashEntry κ ν) : Nat :=
  home hash (capacity - 1) entry.key

structure Sound (slots : List (Option (CHashEntry κ ν))) (capacity count : Nat) : Prop where
  length : slots.length = capacity
  power : ∃ k, 3 ≤ k ∧ k ≤ 58 ∧ capacity = 2 ^ k
  chained : Chained (homeOf hash capacity) slots
  keys : (slots.reduceOption.map (·.key)).Nodup
  size : slots.reduceOption.length = count
  load : count < capacity

end

variable {hash : κ → UInt64} {slots : List (Option (CHashEntry κ ν))} {capacity count : Nat}

theorem Sound.vacant (sound : Sound hash slots capacity count) : ∃ i, Vacant slots i := by
  have few : slots.reduceOption.length < slots.length := by
    rw [sound.size, sound.length]
    exact sound.load
  exact List.mem_iff_getElem?.mp (List.reduceOption_length_lt_iff.mp few)

theorem Sound.homeOf_lt (sound : Sound hash slots capacity count) (key : κ) :
    home hash (capacity - 1) key < slots.length := by
  obtain ⟨k, _, _, rfl⟩ := sound.power
  rw [sound.length]
  exact home_lt hash k key

theorem Sound.after_eq (sound : Sound hash slots capacity count) :
    ∀ i, i < slots.length → after (capacity - 1) i = next slots.length i := by
  obtain ⟨k, _, _, rfl⟩ := sound.power
  rw [sound.length]
  exact fun i inside => Ht.after_eq inside

theorem Sound.same_slot (sound : Sound hash slots capacity count) {j : Nat}
    {one two : CHashEntry κ ν} (first : Holds slots i one) (second : Holds slots j two)
    (same : one.key = two.key) : i = j := by
  by_contra apart
  have outside := contents_empty first
  have keys := (outside.map (·.key)).nodup_iff.mp sound.keys
  have inRest : two ∈ (slots.set i none).reduceOption :=
    mem_contents.mpr ⟨j, (holds_set apart).mpr second⟩
  rw [List.map_cons, List.nodup_cons] at keys
  exact keys.1 (same ▸ List.mem_map_of_mem inRest)

theorem Sound.insert (sound : Sound hash slots capacity count) (entry : CHashEntry κ ν)
    (fresh : ∀ other ∈ slots.reduceOption, other.key ≠ entry.key) (room : count + 1 < capacity) :
    ∃ i, freeSlot hash slots capacity entry.key = some i ∧
      Sound hash (slots.set i (some entry)) capacity (count + 1) ∧
      (slots.set i (some entry)).reduceOption.Perm (entry :: slots.reduceOption) := by
  obtain ⟨rest, isVacant⟩ := sound.vacant
  obtain ⟨i, first, _⟩ := @First.exists _ Option.isNone slots
    (home hash (capacity - 1) entry.key) rest none isVacant rfl
  obtain ⟨slot, isSlot, isNone⟩ := first.found
  cases slot with
  | some => cases isNone
  | none =>
    have contents := contents_fill isSlot entry
    have crowded : Crowded slots (homeOf hash capacity entry) i := by
      intro j inside between
      rcases filled_or_vacant inside with filled | vacant
      · exact filled
      · exact absurd (first.before j none vacant between) (by simp)
    refine ⟨i, ?_, ⟨?_, sound.power, ?_, ?_, ?_, room⟩, contents⟩
    · have scanned := scan_eq sound.after_eq first (sound.homeOf_lt entry.key)
      rwa [sound.length] at scanned
    · rw [List.length_set, sound.length]
    · exact sound.chained.fill isSlot (sound.homeOf_lt entry.key) crowded
    · rw [(contents.map _).nodup_iff, List.map_cons, List.nodup_cons]
      refine ⟨?_, sound.keys⟩
      intro inKeys
      obtain ⟨other, inRest, same⟩ := List.mem_map.mp inKeys
      exact fresh other inRest same
    · rw [contents.length_eq, List.length_cons, sound.size]

theorem Sound.rehash {old : List (Option (CHashEntry κ ν))}
    (sound : Sound hash slots capacity count)
    (keys : ((slots.reduceOption ++ old.reduceOption).map (·.key)).Nodup)
    (room : count + old.reduceOption.length < capacity) :
    ∃ slots', rehash hash capacity old (slots, count) =
        some (slots', count + old.reduceOption.length) ∧
      Sound hash slots' capacity (count + old.reduceOption.length) ∧
      slots'.reduceOption.Perm (slots.reduceOption ++ old.reduceOption) := by
  induction old generalizing slots count with
  | nil => exact ⟨slots, rfl, sound, by simp⟩
  | cons slot rest ih =>
    cases slot with
    | none =>
      rw [List.reduceOption_cons_of_none] at keys room ⊢
      exact ih sound keys room
    | some entry =>
      rw [List.reduceOption_cons_of_some] at keys room ⊢
      rw [List.length_cons] at room ⊢
      have fresh : ∀ other ∈ slots.reduceOption, other.key ≠ entry.key := by
        intro other inSlots same
        rw [List.map_append, List.nodup_append] at keys
        exact keys.2.2 other.key (List.mem_map_of_mem inSlots) entry.key (by simp) same
      obtain ⟨i, isFree, sound', contents⟩ := sound.insert entry fresh (by omega)
      have whole : (slots.set i (some entry)).reduceOption ++ rest.reduceOption |>.Perm
          (slots.reduceOption ++ entry :: rest.reduceOption) :=
        (contents.append_right _).trans List.perm_middle.symm
      obtain ⟨slots', ended, sound'', contents'⟩ := ih sound'
        ((whole.map _).nodup_iff.mpr keys) (by omega)
      refine ⟨slots', ?_, ?_, contents'.trans whole⟩
      · simp only [Ht.rehash, isFree, Option.bind_eq_bind, Option.bind_some, ended]
        congr 2
        omega
      · rw [show count + (rest.reduceOption.length + 1) =
          count + 1 + rest.reduceOption.length by omega]
        exact sound''

theorem shiftBack_ends (small : k ≤ 64) {hole at_ rest : Nat} (fuel : Nat)
    (length : slots.length = 2 ^ k) (hollow : Hollow (homeOf hash (2 ^ k)) slots hole at_ rest)
    (enough : dist slots.length at_ rest < fuel) :
    ∃ slots' hole', shiftBack hash (2 ^ k - 1) fuel slots hole at_ = some (slots', hole') ∧
      slots'.length = slots.length ∧ Chained (homeOf hash (2 ^ k)) (slots'.set hole' none) ∧
      (slots'.set hole' none).reduceOption.Perm (slots.set hole none).reduceOption := by
  induction fuel generalizing slots hole at_ with
  | zero => omega
  | succ fuel ih =>
    rcases filled_or_vacant hollow.inside with ⟨entry, holds⟩ | vacant
    · have notRest : at_ ≠ rest := by
        rintro rfl
        exact hollow.vacant.not_filled ⟨entry, holds⟩
      have closer := dist_from_next hollow.inside hollow.vacant.lt notRest
      have inAt := hollow.inside
      have inHole := hollow.hole_lt
      have isHome := hollow.bound at_ entry holds
      rw [length] at inAt inHole isHome closer enough
      have toAt := i64Sub_mask small inAt isHome
      have toHole := i64Sub_mask small inHole isHome
      rw [homeOf] at toAt toHole
      simp only [shiftBack, holds, toAt, toHole, after_eq inAt]
      split
      next moves =>
        have hollow' := hollow.move holds (by rw [length]; exact moves)
        rw [length] at hollow'
        obtain ⟨slots', hole', ended, length', chained, contents⟩ := ih
          (by rw [List.length_set, length]) hollow' (by rw [List.length_set, length]; omega)
        refine ⟨slots', hole', ended, by rw [length', List.length_set], chained, ?_⟩
        exact contents.trans (contents_move hollow.filled holds hollow.moved)
      next stays =>
        have hollow' := hollow.keep holds (by rw [length]; exact Nat.le_of_not_lt stays)
        rw [length] at hollow'
        exact ih length hollow' (by rw [length]; omega)
    · simp only [shiftBack, vacant]
      exact ⟨slots, hole, rfl, rfl, hollow.finish vacant, List.Perm.refl _⟩

/-! ## The map -/

def Agrees (entries : List (CHashEntry κ ν)) (map : κ → Option ν) : Prop :=
  ∀ key value, map key = some value ↔ ⟨key, value⟩ ∈ entries

theorem Agrees.fresh {map : κ → Option ν} (agrees : Agrees entries map) (absent : map key = none) :
    ∀ other ∈ entries, other.key ≠ key := by
  rintro ⟨_, value⟩ inEntries rfl
  rw [(agrees _ value).mpr inEntries] at absent
  cases absent

theorem Agrees.perm {entries' : List (CHashEntry κ ν)} {map : κ → Option ν}
    (agrees : Agrees entries map) (perm : entries'.Perm entries) : Agrees entries' map := by
  intro key value
  rw [agrees key value, perm.mem_iff]

section
variable [DecidableEq κ]

theorem Agrees.cons {map : κ → Option ν} (agrees : Agrees entries map) (absent : map key = none)
    (value : ν) : Agrees (⟨key, value⟩ :: entries) (Function.update map key (some value)) := by
  intro other value'
  rw [List.mem_cons, CHashEntry.mk.injEq]
  by_cases same : other = key
  · subst same
    rw [Function.update_self, Option.some.injEq]
    have notIn : ⟨other, value'⟩ ∉ entries := fun inEntries =>
      agrees.fresh absent _ inEntries rfl
    simp [notIn, eq_comm]
  · rw [Function.update_of_ne same, agrees other value']
    simp [same]

theorem Agrees.tail {map : κ → Option ν} {value : ν} (agrees : Agrees (⟨key, value⟩ :: entries) map)
    (keys : ((⟨key, value⟩ :: entries : List (CHashEntry κ ν)).map (·.key)).Nodup) :
    Agrees entries (Function.update map key none) := by
  rw [List.map_cons, List.nodup_cons] at keys
  intro other value'
  by_cases same : other = key
  · subst same
    rw [Function.update_self]
    constructor
    · intro absurd_
      cases absurd_
    · intro inEntries
      exact absurd (List.mem_map_of_mem inEntries) keys.1
  · rw [Function.update_of_ne same, agrees other value', List.mem_cons, CHashEntry.mk.injEq]
    simp [same]

/-! ## The functions -/

theorem Sound.htFind (sound : Sound hash slots capacity count) {map : κ → Option ν}
    (agrees : Agrees slots.reduceOption map) (key : κ) :
    map key = none ∧ htFind hash ⟨some slots, capacity, count⟩ (some key) = some none ∨
    ∃ i value, map key = some value ∧ Holds slots i ⟨key, value⟩ ∧
      htFind hash ⟨some slots, capacity, count⟩ (some key) = some (some i) := by
  have scanned : ∀ {i}, First (fun slot => slot.all fun entry => decide (entry.key = key)) slots
      (home hash (capacity - 1) key) i →
      Ht.htFind hash ⟨some slots, capacity, count⟩ (some key) =
        some (if (slots[i]?.join).isSome then some i else none) := by
    intro i first
    have found := scan_eq sound.after_eq first (sound.homeOf_lt key)
    rw [sound.length] at found
    simp only [Ht.htFind, found, Option.bind_eq_bind, Option.bind_some, Option.pure_def]
  cases isIn : map key with
  | none =>
    left
    obtain ⟨rest, vacant⟩ := sound.vacant
    obtain ⟨i, first, _⟩ := @First.exists _
      (fun slot => slot.all fun entry => decide (entry.key = key)) slots
      (home hash (capacity - 1) key) rest none vacant rfl
    obtain ⟨slot, isSlot, good⟩ := first.found
    refine ⟨rfl, ?_⟩
    rw [scanned first, isSlot]
    cases slot with
    | none => rfl
    | some entry =>
      have same : entry.key = key := by simpa using good
      exact absurd same (agrees.fresh isIn entry (mem_contents.mpr ⟨i, isSlot⟩))
  | some value =>
    right
    obtain ⟨i, holds⟩ := mem_contents.mp ((agrees key value).mp isIn)
    have first : First (fun slot => slot.all fun entry => decide (entry.key = key)) slots
        (home hash (capacity - 1) key) i := by
      refine ⟨⟨_, holds, by simp⟩, ?_⟩
      intro j slot isSlot earlier
      have inside := (List.getElem?_eq_some_iff.mp isSlot).1
      obtain ⟨entry, isEntry⟩ := sound.chained.path i _ holds j inside earlier
      rw [Holds, isSlot] at isEntry
      cases isEntry
      have other : entry.key ≠ key := by
        intro same
        have here := sound.same_slot isSlot holds same
        subst here
        exact absurd earlier (Nat.lt_irrefl _)
      simp [other]
    refine ⟨i, value, rfl, holds, ?_⟩
    rw [scanned first, holds]
    rfl

/-- A table that holds `map`: a block of slots, or nothing at all behind
`HtFini`. -/
inductive Stores (hash : κ → UInt64) : CHashTable κ ν → (κ → Option ν) → Prop where
  | empty : Stores hash ⟨none, 0, 0⟩ fun _ => none
  | block (slots : List (Option (CHashEntry κ ν))) (capacity count : Nat) (map : κ → Option ν)
      (sound : Sound hash slots capacity count) (agrees : Agrees slots.reduceOption map) :
      Stores hash ⟨some slots, capacity, count⟩ map

theorem Stores.htGet {map : κ → Option ν} (stores : Stores hash table map) (key : κ) :
    htGet hash table (some key) = some (map key) := by
  cases stores with
  | empty => rfl
  | block slots capacity count map sound agrees =>
    rcases sound.htFind agrees key with ⟨absent, notFound⟩ | ⟨i, value, isIn, holds, found⟩
    · simp only [Ht.htGet, notFound, absent, Option.bind_eq_bind, Option.bind_some]
      rfl
    · simp only [Ht.htGet, found, isIn, Option.bind_eq_bind, Option.bind_some, Option.getD_some,
        holds]
      rfl

end

/-- The result is the least power of two that is large enough. -/
theorem roundLoop_ends {c : Nat} (fuel j : Nat) (small : c ≤ 2 ^ (j + fuel)) :
    ∃ k, j ≤ k ∧ c ≤ 2 ^ k ∧ (∀ b, j ≤ b → c ≤ 2 ^ b → k ≤ b) ∧
      roundLoop c (fuel + 1) (2 ^ j) = some (2 ^ k) := by
  induction fuel generalizing j with
  | zero =>
    refine ⟨j, Nat.le_refl j, small, fun b from_ _ => from_, ?_⟩
    rw [Nat.add_zero] at small
    rw [roundLoop, if_neg (Nat.not_lt_of_le small)]
  | succ fuel ih =>
    rw [roundLoop]
    by_cases more : 2 ^ j < c
    · rw [if_pos more, ← Nat.pow_succ]
      obtain ⟨k, le, enough, least, ended⟩ := ih (j + 1) (by rwa [Nat.add_right_comm])
      refine ⟨k, by omega, enough, fun b from_ fits => least b ?_ fits, ended⟩
      apply Nat.lt_of_le_of_ne from_
      rintro rfl
      omega
    · rw [if_neg more]
      exact ⟨j, Nat.le_refl j, Nat.le_of_not_lt more, fun b from_ _ => from_, rfl⟩

theorem htRoundCapacity_ends {c : Nat} (from_ : 3 ≤ b) (below : b ≤ 58) (small : c ≤ 2 ^ b) :
    ∃ k, 3 ≤ k ∧ k ≤ b ∧ c ≤ 2 ^ k ∧ htRoundCapacity c = some (2 ^ k) := by
  have le : 2 ^ b ≤ 2 ^ (3 + 59) := Nat.pow_le_pow_right (by decide) (by omega)
  obtain ⟨k, low, enough, least, ended⟩ := roundLoop_ends 59 3 (Nat.le_trans small le)
  exact ⟨k, low, least b from_ small, enough, ended⟩

/-- A block of slots whose size has a place in an I64. -/
theorem cAlloc_granted (small : k ≤ 58) :
    cAlloc true (2 ^ k * entrySize) =
      some (some (List.replicate (2 ^ k) (none : Option (CHashEntry κ ν)))) := by
  have le : 2 ^ k ≤ 2 ^ 58 := Nat.pow_le_pow_right (by decide) small
  have size : 2 ^ k * entrySize < 2 ^ 63 := by
    rw [entrySize]
    omega
  have small64 : 2 ^ k * entrySize % 2 ^ 64 = 2 ^ k * entrySize := Nat.mod_eq_of_lt (by omega)
  rw [cAlloc, small64, if_neg (by simp), if_neg (by omega), entrySize, 
    Nat.mul_div_cancel _ (show 0 < 16 by decide)]

theorem sound_fresh (hash : κ → UInt64) (low : 3 ≤ k) (small : k ≤ 58) :
    Sound hash (List.replicate (2 ^ k) (none : Option (CHashEntry κ ν))) (2 ^ k) 0 where
  length := List.length_replicate
  power := ⟨k, low, small, rfl⟩
  chained := Chained.none _ _
  keys := by simp
  size := by simp
  load := Nat.two_pow_pos k

theorem htInitCapacity_fresh (table : CHashTable κ ν) {c : Int} (from_ : 3 ≤ b) (below : b ≤ 58)
    (small : c ≤ ((2 ^ b : Nat) : Int)) :
    ∃ k, 3 ≤ k ∧ k ≤ b ∧ c ≤ ((2 ^ k : Nat) : Int) ∧ htInitCapacity true table c =
      some (.returned ⟨some (List.replicate (2 ^ k) none), 2 ^ k, 0⟩ ()) := by
  have eight : 2 ^ 3 ≤ 2 ^ b := Nat.pow_le_pow_right (by decide) from_
  obtain ⟨k, low, le, enough, rounded⟩ := htRoundCapacity_ends from_ below
    (c := if c < 8 then 8 else c.toNat) (by split <;> omega)
  refine ⟨k, low, le, by split at enough <;> omega, ?_⟩
  simp only [htInitCapacity, rounded, cAlloc_granted (Nat.le_trans le below), Option.bind_eq_bind,
    Option.bind_some, Option.pure_def]

/-! ## Writing -/

variable {map : κ → Option ν}

theorem i64_size (fits : 2 ^ k * entrySize < 2 ^ 63) : k ≤ 58 := by
  by_contra large
  have le : 2 ^ 59 ≤ 2 ^ k := Nat.pow_le_pow_right (by decide) (by omega)
  rw [entrySize] at fits
  omega

theorem Sound.room (sound : Sound hash slots capacity count)
    (fits : capacity * 2 * entrySize < 2 ^ 63) :
    ∃ k, capacity = 2 ^ k ∧ 3 ≤ k ∧ k + 1 ≤ 58 := by
  obtain ⟨k, low, _, rfl⟩ := sound.power
  rw [← Nat.pow_succ] at fits
  exact ⟨k, rfl, low, i64_size fits⟩

/-- A growth that gets its memory moves the map to a larger table. -/
theorem Sound.htResize (sound : Sound hash slots capacity count)
    (fits : capacity * 2 * entrySize < 2 ^ 63) :
    ∃ slots' capacity', htResize hash true ⟨some slots, capacity, count⟩ (capacity * 2) =
        some (.returned ⟨some slots', capacity', count⟩ ()) ∧ capacity * 2 ≤ capacity' ∧
      Sound hash slots' capacity' count ∧ slots'.reduceOption.Perm slots.reduceOption := by
  obtain ⟨k, isPower, from_, small⟩ := sound.room fits
  have isDouble : capacity * 2 = 2 ^ (k + 1) := by rw [isPower, Nat.pow_succ]
  obtain ⟨k', low, le, enough, fresh⟩ := htInitCapacity_fresh ⟨some slots, capacity, count⟩
    (c := ((capacity * 2 : Nat) : Int)) (by omega) small (Int.ofNat_le.mpr (Nat.le_of_eq isDouble))
  have wide : capacity * 2 ≤ 2 ^ k' := by exact_mod_cast enough
  have load := sound.load
  obtain ⟨slots', ended, sound', contents⟩ := (sound_fresh hash low (Nat.le_trans le small)).rehash
    (by simpa using sound.keys) (by rw [sound.size]; omega)
  rw [sound.size, Nat.zero_add] at ended sound'
  rw [List.reduceOption_replicate_none, List.nil_append] at contents
  refine ⟨slots', 2 ^ k', ?_, wide, sound', contents⟩
  have inBlock : ¬capacity > slots.length := by
    rw [sound.length]
    exact Nat.lt_irrefl _
  have all : slots.take capacity = slots := List.take_of_length_le (Nat.le_of_eq sound.length)
  simp only [Ht.htResize, fresh, Ended.andThen, Option.bind_eq_bind, Option.bind_some,
    Option.getD_some, if_neg inBlock, all, ended, Option.pure_def]

theorem Sound.put [DecidableEq κ] (sound : Sound hash slots capacity count)
    (agrees : Agrees slots.reduceOption map) (absent : map key = none) (room : count + 1 < capacity)
    (value : ν) :
    ∃ table, Ht.insert hash ⟨some slots, capacity, count⟩ key value =
        some (.returned table true) ∧
      Stores hash table (Function.update map key (some value)) := by
  obtain ⟨i, isFree, sound', contents⟩ := sound.insert ⟨key, value⟩ (agrees.fresh absent) room
  refine ⟨_, ?_, Stores.block _ _ _ _ sound' ((agrees.cons absent value).perm contents)⟩
  simp only [Ht.insert, isFree, Option.bind_eq_bind, Option.bind_some, Option.pure_def]

theorem Sound.setValue [DecidableEq κ] (sound : Sound hash slots capacity count)
    (agrees : Agrees slots.reduceOption map) {old : ν} (holds : Holds slots i ⟨key, old⟩)
    (value : ν) :
    Stores hash ⟨some (slots.modify i (setValue value)), capacity, count⟩
      (Function.update map key (some value)) := by
  have modified : slots.modify i (Ht.setValue value) = slots.set i (some ⟨key, value⟩) := by
    rw [List.modify_eq_set_getElem?, holds]
    rfl
  have before := contents_empty holds
  have here : Holds (slots.set i (some ⟨key, value⟩)) i ⟨key, value⟩ := holds_set_self holds.lt
  have behind := contents_empty here
  rw [List.set_set] at behind
  rw [modified]
  have keysBefore := (before.map (·.key)).nodup_iff.mp sound.keys
  have keysBehind : ((slots.set i (some ⟨key, value⟩)).reduceOption.map (·.key)).Nodup :=
    (behind.map (·.key)).nodup_iff.mpr keysBefore
  apply Stores.block
  · refine ⟨by rw [List.length_set, sound.length], sound.power, ?_, keysBehind, ?_, sound.load⟩
    · exact sound.chained.replace holds rfl
    · rw [behind.length_eq, List.length_cons, ← sound.size, before.length_eq, List.length_cons]
  · have without := (agrees.perm before.symm).tail keysBefore
    have again := without.cons (Function.update_self key none map) value
    rw [Function.update_idem] at again
    exact again.perm behind

theorem Sound.roomy (sound : Sound hash slots capacity count) (room : ¬(count + 1) * 4 > capacity * 3) :
    count + 1 < capacity := by
  have load := sound.load
  omega

/-- What `HtPut` needs: a new key that makes the table full by three quarters,
or that is the first one behind `HtFini`, gets a block whose size has a place
in an I64. -/
def Allocates (granted : Bool) (table : CHashTable κ ν) (fresh : Bool) : Prop :=
  fresh = true → table.entries.isNone = true ∨ (table.count + 1) * 4 > table.capacity * 3 →
    granted = true ∧ table.capacity * 2 * entrySize < 2 ^ 63

theorem Stores.put_block [DecidableEq κ] {granted : Bool}
    (sound : Sound hash slots capacity count) (agrees : Agrees slots.reduceOption map)
    (key : κ) (value : ν)
    (memory : Allocates granted ⟨some slots, capacity, count⟩ (map key).isNone) :
    ∃ table, htPut hash granted ⟨some slots, capacity, count⟩ (some key) value =
        some (.returned table (map key).isNone) ∧
      Stores hash table (Function.update map key (some value)) := by
  rcases sound.htFind agrees key with ⟨absent, notFound⟩ | ⟨i, old, isIn, holds, found⟩
  · simp only [htPut, Option.isNone_some, Bool.false_eq_true, if_false, Ended.andThen,
      Option.bind_eq_bind, Option.bind_some, notFound]
    rw [absent] at memory ⊢
    split
    next full =>
      obtain ⟨isGranted, fits⟩ := memory rfl (Or.inr full)
      obtain ⟨slots', capacity', grown, wide, sound', contents⟩ := sound.htResize fits
      have load := sound.load
      obtain ⟨table, put, stores⟩ := sound'.put (agrees.perm contents) absent (by omega) value
      rw [isGranted, grown]
      exact ⟨table, put, stores⟩
    next room =>
      obtain ⟨table, put, stores⟩ := sound.put agrees absent (sound.roomy room) value
      exact ⟨table, put, stores⟩
  · simp only [htPut, Option.isNone_some, Bool.false_eq_true, if_false, Ended.andThen,
      Option.bind_eq_bind, Option.bind_some, found, isIn, Option.map_some, Option.pure_def]
    exact ⟨_, rfl, sound.setValue agrees holds value⟩

theorem Sound.htDelete [DecidableEq κ] (sound : Sound hash slots capacity count)
    (agrees : Agrees slots.reduceOption map) (key : κ) :
    ∃ slots' count', htDelete hash ⟨some slots, capacity, count⟩ (some key) =
        some (⟨some slots', capacity, count'⟩, (map key).isSome) ∧
      Sound hash slots' capacity count' ∧
      Agrees slots'.reduceOption (Function.update map key none) := by
  rcases sound.htFind agrees key with ⟨absent, notFound⟩ | ⟨i, old, isIn, holds, found⟩
  · refine ⟨slots, count, ?_, sound, ?_⟩
    · simp only [Ht.htDelete, notFound, absent, Option.bind_eq_bind, Option.bind_some,
        Option.pure_def, Option.isSome_none]
    · rw [← absent, Function.update_eq_self]
      exact agrees
  · obtain ⟨rest, vacant⟩ := sound.vacant
    obtain ⟨k, low, small, isPower⟩ := sound.power
    have length : slots.length = 2 ^ k := by rw [sound.length, isPower]
    have hollow := sound.chained.hollow ⟨_, holds⟩ vacant
    have bound := dist_lt hollow.inside vacant.lt
    rw [isPower] at hollow
    obtain ⟨slots', hole, ended, length', chained, contents⟩ := shiftBack_ends
      (Nat.le_trans small (by decide)) capacity length hollow (by rw [← sound.length]; exact bound)
    have before := contents_empty holds
    have keysBefore := (before.map (·.key)).nodup_iff.mp sound.keys
    have less : (slots.set i none).reduceOption.length = count - 1 := by
      rw [← sound.size, before.length_eq, List.length_cons, Nat.add_sub_cancel]
    have load := sound.load
    refine ⟨slots'.set hole none, count - 1, ?_, ⟨?_, ⟨k, low, small, isPower⟩, ?_, ?_, ?_, ?_⟩, ?_⟩
    · have start := sound.after_eq i holds.lt
      rw [isPower] at start ended ⊢
      simp only [Ht.htDelete, isPower ▸ found, isIn, Option.bind_eq_bind, Option.bind_some,
        Option.pure_def, Option.getD_some, start, ended, Option.isSome_some]
    · rw [List.length_set, length', sound.length]
    · rw [isPower]
      exact chained
    · rw [(contents.map (·.key)).nodup_iff]
      exact (List.nodup_cons.mp keysBefore).2
    · rw [contents.length_eq, less]
    · omega
    · exact ((agrees.perm before.symm).tail keysBefore).perm contents

theorem sound_cleared (sound : Sound hash slots capacity count) :
    Sound hash (List.replicate capacity (none : Option (CHashEntry κ ν)) ++ slots.drop capacity)
      capacity 0 := by
  obtain ⟨k, low, small, rfl⟩ := sound.power
  rw [List.drop_of_length_le (Nat.le_of_eq sound.length), List.append_nil]
  exact sound_fresh hash low small

/-! ## Traversal -/

/-- The next occupied slot, with what is left behind it. -/
theorem nextLoop_ends (fuel index : Nat) (le : index ≤ slots.length)
    (enough : slots.length < index + fuel) :
    ((slots.drop index).reduceOption = [] ∧ nextLoop slots slots.length fuel index = some none) ∨
    ∃ i entry, index ≤ i ∧ Holds slots i entry ∧
      (slots.drop index).reduceOption = entry :: (slots.drop (i + 1)).reduceOption ∧
      nextLoop slots slots.length fuel index = some (some i) := by
  induction fuel generalizing index with
  | zero => omega
  | succ fuel ih =>
    by_cases inside : index < slots.length
    · rw [List.drop_eq_getElem_cons inside]
      simp only [nextLoop, if_pos inside, List.getElem?_eq_getElem inside]
      cases isSlot : slots[index] with
      | some entry =>
        right
        refine ⟨index, entry, Nat.le_refl _, ?_, List.reduceOption_cons_of_some _ _, rfl⟩
        rw [Holds, List.getElem?_eq_getElem inside, isSlot]
      | none =>
        rw [List.reduceOption_cons_of_none]
        rcases ih (index + 1) inside (by omega) with none | ⟨i, entry, le, holds, rest, ended⟩
        · exact Or.inl none
        · exact Or.inr ⟨i, entry, by omega, holds, rest, ended⟩
    · left
      rw [List.drop_of_length_le (Nat.le_of_not_lt inside), nextLoop, if_neg inside]
      exact ⟨rfl, rfl⟩

theorem traverse_ends (fuel index : Nat) (count : Nat) (enough : slots.length < index + fuel)
    (inside : index ≤ slots.length) :
    ∃ order, traverse ⟨some slots, slots.length, count⟩ fuel index = some order ∧
      order.map (fun i => slots[i]?.join) = (slots.drop index).reduceOption.map some := by
  induction fuel generalizing index with
  | zero => omega
  | succ fuel ih =>
    rcases @nextLoop_ends κ ν slots (slots.length - index + 1) index inside
      (by omega) with
      ⟨empty, ended⟩ | ⟨i, entry, le, holds, rest, found⟩
    · refine ⟨[], ?_, by rw [empty]; rfl⟩
      simp only [traverse, htNext, Option.getD_some, ended, Option.bind_eq_bind,
        Option.bind_some, Option.pure_def]
    · have lt := holds.lt
      obtain ⟨order, ended, visits⟩ := ih (i + 1) (by omega) (by omega)
      refine ⟨i :: order, ?_, ?_⟩
      · simp only [traverse, htNext, Option.getD_some, found, Option.bind_eq_bind,
          Option.bind_some, ended, Option.pure_def]
      · rw [List.map_cons, visits, rest, List.map_cons, holds]
        rfl

/-! ## Runs -/

/-- A call of the interface; `granted` says whether an allocation succeeds. -/
inductive Call (κ ν : Type) where
  | put (granted : Bool) (key : Option κ) (value : ν)
  | get (key : Option κ)
  | delete (key : Option κ)
  | clear
  | fini

inductive Answer (ν : Type) where
  | inserted (fresh : Bool)
  | found (value : Option ν)
  | deleted (present : Bool)
  | done
  | noMemory
  deriving DecidableEq

variable [DecidableEq κ]

def serve (hash : κ → UInt64) (table : CHashTable κ ν) :
    Call κ ν → Option (CHashTable κ ν × Answer ν)
  | .put granted key value => do
      match ← htPut hash granted table key value with
      | .returned table fresh => return (table, .inserted fresh)
      | .thrown table => return (table, .noMemory)
  | .get key => do
      let value ← htGet hash table key
      return (table, .found value)
  | .delete key => do
      let (table, present) ← htDelete hash table key
      return (table, .deleted present)
  | .clear => do
      let table ← htClear table
      return (table, .done)
  | .fini => return (htFini table, .done)

def serveAll (hash : κ → UInt64) : CHashTable κ ν → List (Call κ ν) →
    Option (CHashTable κ ν × List (Answer ν))
  | table, [] => some (table, [])
  | table, call :: rest => do
      let (table, answer) ← serve hash table call
      let (table, answers) ← serveAll hash table rest
      return (table, answer :: answers)

def answer (map : κ → Option ν) : Call κ ν → (κ → Option ν) × Answer ν
  | .put _ none _ => (map, .inserted false)
  | .put _ (some key) value => (Function.update map key (some value), .inserted (map key).isNone)
  | .get none => (map, .found none)
  | .get (some key) => (map, .found (map key))
  | .delete none => (map, .deleted false)
  | .delete (some key) => (Function.update map key none, .deleted (map key).isSome)
  | .clear => (fun _ => none, .done)
  | .fini => (fun _ => none, .done)

def answerAll (map : κ → Option ν) : List (Call κ ν) → (κ → Option ν) × List (Answer ν)
  | [] => (map, [])
  | call :: rest =>
      ((answerAll (answer map call).1 rest).1,
        (answer map call).2 :: (answerAll (answer map call).1 rest).2)

def HasMemory (table : CHashTable κ ν) (map : κ → Option ν) : Call κ ν → Prop
  | .put granted (some key) _ => Allocates granted table (map key).isNone
  | _ => True

def AllHaveMemory (hash : κ → UInt64) : CHashTable κ ν → (κ → Option ν) → List (Call κ ν) → Prop
  | _, _, [] => True
  | table, map, call :: rest => HasMemory table map call ∧
      ∀ table' reply, serve hash table call = some (table', reply) →
        AllHaveMemory hash table' (answer map call).1 rest

structure IsMap (hash : κ → UInt64) (table : CHashTable κ ν) (map : κ → Option ν) : Prop where
  get : ∀ key, htGet hash table (some key) = some (map key)
  count : ∃ keys : List κ, keys.Nodup ∧ keys.length = table.count ∧
    ∀ key, key ∈ keys ↔ (map key).isSome = true
  unique : ∀ key value, map key = some value → ∃ slots i, table.entries = some slots ∧
    Holds slots i ⟨key, value⟩ ∧ ∀ j entry, Holds slots j entry → entry.key = key → j = i
  reachable : ∀ slots i entry, table.entries = some slots → Holds slots i entry →
    Crowded slots (home hash (table.capacity - 1) entry.key) i
  vacant : ∀ slots, table.entries = some slots → ∃ i, Vacant slots i
  traversal : ∃ order : List Nat, ∃ entries : List (CHashEntry κ ν), traverse table (table.capacity + 1) 0 = some order ∧
    order.map (fun i => (table.entries.getD [])[i]?.join) = entries.map some ∧
    (entries.map CHashEntry.key).Nodup ∧
    ∀ entry, entry ∈ entries ↔ map entry.key = some entry.value

theorem Sound.isMap (sound : Sound hash slots capacity count)
    (agrees : Agrees slots.reduceOption map) : IsMap hash ⟨some slots, capacity, count⟩ map where
  get := (Stores.block slots capacity count map sound agrees).htGet
  count := by
    refine ⟨slots.reduceOption.map (·.key), sound.keys, by rw [List.length_map, sound.size], ?_⟩
    intro key
    rw [List.mem_map, Option.isSome_iff_exists]
    constructor
    · rintro ⟨⟨_, value⟩, inSlots, rfl⟩
      exact ⟨value, (agrees _ value).mpr inSlots⟩
    · rintro ⟨value, isIn⟩
      exact ⟨⟨key, value⟩, (agrees key value).mp isIn, rfl⟩
  unique := by
    intro key value isIn
    obtain ⟨i, holds⟩ := mem_contents.mp ((agrees key value).mp isIn)
    exact ⟨slots, i, rfl, holds, fun j entry isEntry same => sound.same_slot isEntry holds same⟩
  reachable := by
    intro slots' i entry isSlots holds j inside between
    cases isSlots
    exact sound.chained.path i entry holds j inside between
  vacant := by
    intro slots' isSlots
    cases isSlots
    exact sound.vacant
  traversal := by
    obtain ⟨order, ended, visits⟩ := @traverse_ends κ ν slots (slots.length + 1) 0 count (by omega)
      (Nat.zero_le slots.length)
    rw [List.drop_zero] at visits
    rw [sound.length] at ended
    exact ⟨order, slots.reduceOption, ended, visits, sound.keys,
      fun entry => (agrees entry.key entry.value).symm⟩

theorem isMap_empty (hash : κ → UInt64) :
    IsMap hash (⟨none, 0, 0⟩ : CHashTable κ ν) fun _ => none where
  get _ := rfl
  count := ⟨[], List.nodup_nil, rfl, by simp⟩
  unique := by
    intro key value isIn
    cases isIn
  reachable := by
    intro slots i entry isSlots
    cases isSlots
  vacant := by
    intro slots isSlots
    cases isSlots
  traversal := ⟨[], [], rfl, rfl, List.nodup_nil, by simp⟩

theorem Stores.isMap (stores : Stores hash table map) : IsMap hash table map := by
  cases stores with
  | empty => exact isMap_empty hash
  | block slots capacity count map sound agrees => exact sound.isMap agrees

/-- A put into the table behind `HtFini` starts with a block of eight slots. -/
theorem put_empty (hash : κ → UInt64) (key : κ) (value : ν) :
    ∃ table, htPut hash true ⟨none, 0, 0⟩ (some key) value = some (.returned table true) ∧
      Stores hash table (Function.update (fun _ => none) key (some value)) := by
  obtain ⟨k, low, small, enough, fresh⟩ :=
    htInitCapacity_fresh (⟨none, 0, 0⟩ : CHashTable κ ν) (b := 3) (c := 8) (by decide) (by decide)
      (by decide)
  have le : 2 ^ 3 ≤ 2 ^ k := Nat.pow_le_pow_right (by decide) low
  have sound : Sound hash (List.replicate (2 ^ k) (none : Option (CHashEntry κ ν))) (2 ^ k) 0 :=
    sound_fresh hash low (Nat.le_trans small (by decide))
  have agrees : Agrees (List.replicate (2 ^ k) (none : Option (CHashEntry κ ν))).reduceOption
      fun _ => none := by
    intro key value
    simp
  obtain ⟨table, put, stores⟩ := Stores.put_block sound agrees key value (by
    intro _ full
    simp only [Option.isNone_some, Bool.false_eq_true, false_or] at full
    omega)
  refine ⟨table, ?_, stores⟩
  simp only [htPut, Option.isNone_none, if_true, htInit, fresh, Option.bind_eq_bind,
    Option.bind_some, Ended.andThen, Option.isNone_some, Bool.false_eq_true, if_false] at put ⊢
  exact put

theorem Stores.serve (stores : Stores hash table map) (call : Call κ ν)
    (memory : HasMemory table map call) :
    ∃ table', serve hash table call = some (table', (answer map call).2) ∧
      Stores hash table' (answer map call).1 := by
  cases call with
  | put granted key value =>
    cases key with
    | none => exact ⟨table, rfl, stores⟩
    | some key =>
      cases stores with
      | empty =>
        obtain ⟨rfl, _⟩ := memory rfl (Or.inl rfl)
        obtain ⟨table', put, stores'⟩ := put_empty hash key value
        refine ⟨table', ?_, stores'⟩
        simp only [Ht.serve, put, Option.bind_eq_bind, Option.bind_some, Option.pure_def,
          answer, Option.isNone_none]
      | block slots capacity count map sound agrees =>
        obtain ⟨table', put, stores'⟩ := Stores.put_block sound agrees key value memory
        refine ⟨table', ?_, stores'⟩
        simp only [Ht.serve, put, Option.bind_eq_bind, Option.bind_some, Option.pure_def,
          answer]
  | get key =>
    refine ⟨table, ?_, by cases key <;> exact stores⟩
    cases key with
    | none => cases stores <;> rfl
    | some key =>
      simp only [Ht.serve, stores.htGet, Option.bind_eq_bind, Option.bind_some,
        Option.pure_def, answer]
  | delete key =>
    cases key with
    | none =>
      refine ⟨table, ?_, stores⟩
      cases stores <;> rfl
    | some key =>
      cases stores with
      | empty =>
        refine ⟨_, rfl, ?_⟩
        rw [answer, Function.update_eq_self_iff.mpr rfl]
        exact Stores.empty
      | block slots capacity count map sound agrees =>
        obtain ⟨slots', count', deleted, sound', agrees'⟩ := sound.htDelete agrees key
        refine ⟨_, ?_, Stores.block slots' capacity count' _ sound' agrees'⟩
        simp only [Ht.serve, deleted, Option.bind_eq_bind, Option.bind_some, Option.pure_def,
          answer]
  | clear =>
    cases stores with
    | empty => exact ⟨_, rfl, Stores.empty⟩
    | block slots capacity count map sound agrees =>
      have inBlock : ¬capacity > slots.length := by
        rw [sound.length]
        exact Nat.lt_irrefl _
      refine ⟨_, ?_, Stores.block _ capacity 0 _ (sound_cleared sound) ?_⟩
      · simp only [Ht.serve, htClear, if_neg inBlock, Option.bind_eq_bind, Option.bind_some,
          Option.pure_def, answer]
      · intro key value
        rw [List.drop_of_length_le (Nat.le_of_eq sound.length)]
        simp [answer]
  | fini => exact ⟨_, rfl, Stores.empty⟩

theorem Stores.serveAll (stores : Stores hash table map) (calls : List (Call κ ν))
    (memory : AllHaveMemory hash table map calls) :
    ∃ table', serveAll hash table calls = some (table', (answerAll map calls).2) ∧
      Stores hash table' (answerAll map calls).1 := by
  induction calls generalizing table map with
  | nil => exact ⟨table, rfl, stores⟩
  | cons call rest ih =>
    obtain ⟨here, later⟩ := memory
    obtain ⟨mid, served, stores'⟩ := stores.serve call here
    obtain ⟨table', ended, stores''⟩ := ih stores' (later mid _ served)
    refine ⟨table', ?_, stores''⟩
    simp only [Ht.serveAll, served, ended, Option.bind_eq_bind, Option.bind_some,
      Option.pure_def, answerAll]

/-- In every run in which the allocations succeed, an initialised table is the
map of the calls and answers as it does. -/
theorem hashTable_isMap (hash : κ → UInt64) (memory table : CHashTable κ ν) (capacity : Int)
    (small : capacity ≤ 288230376151711744)
    (initialised : htInitCapacity true memory capacity = some (.returned table ()))
    (calls : List (Call κ ν)) (granted : AllHaveMemory hash table (fun _ => none) calls) :
    ∃ table', serveAll hash table calls = some (table', (answerAll (fun _ => none) calls).2) ∧
      IsMap hash table' (answerAll (fun _ => none) calls).1 := by
  obtain ⟨k, low, le, _, fresh⟩ := htInitCapacity_fresh memory (b := 58) (c := capacity)
    (by decide) (by decide) (Int.le_trans small (by decide))
  rw [initialised] at fresh
  cases fresh
  have stores : Stores hash (⟨some (List.replicate (2 ^ k) none), 2 ^ k, 0⟩ : CHashTable κ ν)
      fun _ => none := by
    apply Stores.block _ _ _ _ (sound_fresh hash low le)
    intro key value
    simp
  obtain ⟨table', ended, stores'⟩ := stores.serveAll calls granted
  exact ⟨table', ended, stores'.isMap⟩

theorem allHaveMemory_cons {call : Call κ ν} {rest : List (Call κ ν)} :
    AllHaveMemory hash table map (call :: rest) ↔ HasMemory table map call ∧
      ∀ served ∈ serve hash table call,
        AllHaveMemory hash served.1 (answer map call).1 rest := by
  constructor
  · intro memory
    exact ⟨memory.1, fun served isServed => memory.2 served.1 served.2 isServed⟩
  · intro memory
    exact ⟨memory.1, fun table' reply isServed => memory.2 (table', reply) isServed⟩

instance (granted fresh : Bool) (table : CHashTable κ ν) :
    Decidable (Allocates granted table fresh) :=
  inferInstanceAs (Decidable (_ → _ → _))

instance (call : Call κ ν) : Decidable (HasMemory table map call) :=
  match call with
  | .put granted (some key) _ =>
    inferInstanceAs (Decidable (Allocates granted table (map key).isNone))
  | .put _ none _ => .isTrue trivial
  | .get _ => .isTrue trivial
  | .delete _ => .isTrue trivial
  | .clear => .isTrue trivial
  | .fini => .isTrue trivial

def decidableAllHaveMemory (hash : κ → UInt64) : (calls : List (Call κ ν)) →
    (table : CHashTable κ ν) → (map : κ → Option ν) → Decidable (AllHaveMemory hash table map calls)
  | [], _, _ => .isTrue trivial
  | call :: rest, _, map =>
    have := fun table => decidableAllHaveMemory hash rest table (answer map call).1
    decidable_of_iff' _ allHaveMemory_cons

instance (calls : List (Call κ ν)) : Decidable (AllHaveMemory hash table map calls) :=
  decidableAllHaveMemory hash calls table map

/-- Seven keys make the block of eight slots grow; then one of them goes. -/
def growingCalls : List (Call (List UInt8) Nat) :=
  [.put true (some [0x61]) 1, .put true (some [0x62]) 2, .put true (some [0x63]) 3,
    .put true (some [0x64]) 4, .put true (some [0x65]) 5, .put true (some [0x66]) 6,
    .put true (some [0x67]) 7, .put true (some [0x61]) 8, .delete (some [0x62]),
    .get (some [0x62]), .get (some [0x61])]

theorem hashTable_isMap_growing :
    ∃ table, serveAll htHash ⟨some (List.replicate 8 none), 8, 0⟩ growingCalls =
        some (table, List.replicate 7 (.inserted true) ++
          [.inserted false, .deleted true, .found none, .found (some 8)]) ∧
      IsMap htHash table (answerAll (fun _ => none) growingCalls).1 := by
  have initialised : htInitCapacity true (⟨none, 0, 0⟩ : CHashTable (List UInt8) Nat) 8 =
      some (.returned ⟨some (List.replicate 8 none), 8, 0⟩ ()) := by decide
  have answers : (answerAll (fun _ => none) growingCalls).2 = List.replicate 7 (.inserted true) ++
      [.inserted false, .deleted true, .found none, .found (some 8)] := by decide +kernel
  rw [← answers]
  exact hashTable_isMap htHash ⟨none, 0, 0⟩ ⟨some (List.replicate 8 none), 8, 0⟩ 8 (by decide)
    initialised growingCalls (by decide +kernel)

/-- When the growth for a seventh key fails, the capacity is already doubled,
and the search for a live key reads behind the block. -/
theorem failed_growth_breaks :
    ∃ table table' : CHashTable (List UInt8) Nat,
      htInitCapacity true ⟨none, 0, 0⟩ 8 = some (.returned table ()) ∧
      serveAll htHash table [.put true (some [0x61]) 1, .put true (some [0x62]) 2,
        .put true (some [0x63]) 3, .put true (some [0x64]) 4, .put true (some [0x65]) 5,
        .put true (some [0x66]) 6, .put false (some [0x67]) 7] =
        some (table', List.replicate 6 (.inserted true) ++ [.noMemory]) ∧
      ∀ map, ¬IsMap htHash table' map := by
  refine ⟨⟨some (List.replicate 8 none), 8, 0⟩, ⟨some [none, none, some ⟨[0x65], 5⟩,
    some ⟨[0x62], 2⟩, some ⟨[0x63], 3⟩, some ⟨[0x61], 1⟩, some ⟨[0x64], 4⟩,
    some ⟨[0x66], 6⟩], 16, 6⟩, by decide, by decide +kernel, ?_⟩
  intro map isMap
  have found := isMap.get [0x63]
  have stuck : htGet htHash (⟨some [none, none, some ⟨[0x65], 5⟩, some ⟨[0x62], 2⟩,
      some ⟨[0x63], 3⟩, some ⟨[0x61], 1⟩, some ⟨[0x64], 4⟩, some ⟨[0x66], 6⟩], 16, 6⟩ :
      CHashTable (List UInt8) Nat) (some [0x63]) = none := by decide +kernel
  rw [stuck] at found
  cases found

end Aholyc.Ht
