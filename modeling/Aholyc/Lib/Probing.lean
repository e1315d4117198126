import Mathlib.Data.List.ReduceOption
import Mathlib.Data.List.Perm.Basic

/-!
# Linear probing

Slots stand in a circle. An entry stands at its home slot or behind it, and no
slot on the way is vacant. A vacant slot may be filled when it is the first one
from the home; an entry is taken out by moving later entries of its run back,
one hole at a time.
-/

namespace Aholyc.Lib.Probing

/-! ## The circle -/

def next (n i : Nat) : Nat := if i + 1 = n then 0 else i + 1

def dist (n a b : Nat) : Nat := if a ≤ b then b - a else b + n - a

theorem dist_cases (n a b : Nat) :
    a ≤ b ∧ dist n a b = b - a ∨ b < a ∧ dist n a b = b + n - a := by
  unfold dist
  split <;> omega

theorem next_cases (n i : Nat) : i + 1 = n ∧ next n i = 0 ∨ i + 1 ≠ n ∧ next n i = i + 1 := by
  unfold next
  split <;> omega

@[simp] theorem dist_self (n a : Nat) : dist n a a = 0 := by simp [dist]

theorem dist_lt {n a b : Nat} (inA : a < n) (inB : b < n) : dist n a b < n := by
  have way := dist_cases n a b
  omega

theorem dist_eq_zero {n a b : Nat} (inA : a < n) : dist n a b = 0 ↔ a = b := by
  have way := dist_cases n a b
  omega

theorem dist_inj {n a b c : Nat} (inA : a < n) (inB : b < n) (inC : c < n)
    (same : dist n a b = dist n a c) : b = c := by
  have toB := dist_cases n a b
  have toC := dist_cases n a c
  omega

theorem next_lt {n i : Nat} (inside : i < n) : next n i < n := by
  have after := next_cases n i
  omega

theorem next_ne {n i b : Nat} (inB : b < n) (other : i ≠ b) :
    i ≠ next n i := by
  have after := next_cases n i
  omega

theorem dist_next {n a i : Nat} (inA : a < n) (other : next n i ≠ a) :
    dist n a (next n i) = dist n a i + 1 := by
  have after := next_cases n i
  have toI := dist_cases n a i
  have toNext := dist_cases n a (next n i)
  omega

theorem dist_from_next {n i b : Nat} (inside : i < n) (inB : b < n) (other : i ≠ b) :
    dist n (next n i) b + 1 = dist n i b := by
  have after := next_cases n i
  have toB := dist_cases n i b
  have fromNext := dist_cases n (next n i) b
  omega

theorem dist_split {n a b c : Nat} (inA : a < n) (inB : b < n) (inC : c < n)
    (between : dist n a b ≤ dist n a c) : dist n a b + dist n b c = dist n a c := by
  have toB := dist_cases n a b
  have toC := dist_cases n a c
  have onward := dist_cases n b c
  omega

theorem dist_through {n a b c d : Nat} (inA : a < n) (inB : b < n) (inC : c < n) (inD : d < n)
    (between : dist n a b ≤ dist n a d) (later : dist n b c ≤ dist n b d) :
    dist n a c + dist n c d = dist n a d := by
  have whole := dist_split inA inB inD between
  have rest := dist_split inB inC inD later
  have toB := dist_cases n a b
  have toC := dist_cases n a c
  have toD := dist_cases n a d
  have middle := dist_cases n b c
  have last := dist_cases n c d
  omega

/-! ## Slots -/

variable {α : Type}

abbrev Holds (slots : List (Option α)) (i : Nat) (e : α) : Prop := slots[i]? = some (some e)

abbrev Vacant (slots : List (Option α)) (i : Nat) : Prop := slots[i]? = some none

abbrev Filled (slots : List (Option α)) (i : Nat) : Prop := ∃ e, Holds slots i e

theorem Holds.lt {slots : List (Option α)} {i : Nat} {e : α} (holds : Holds slots i e) :
    i < slots.length :=
  (List.getElem?_eq_some_iff.mp holds).1

theorem Vacant.lt {slots : List (Option α)} {i : Nat} (vacant : Vacant slots i) :
    i < slots.length :=
  (List.getElem?_eq_some_iff.mp vacant).1

theorem filled_or_vacant {slots : List (Option α)} {i : Nat} (inside : i < slots.length) :
    Filled slots i ∨ Vacant slots i := by
  cases slot : slots[i] with
  | none => exact Or.inr (by rw [Vacant, List.getElem?_eq_getElem inside, slot])
  | some e => exact Or.inl ⟨e, by rw [Holds, List.getElem?_eq_getElem inside, slot]⟩

theorem Vacant.not_filled {slots : List (Option α)} {i : Nat} (vacant : Vacant slots i) :
    ¬Filled slots i := by
  rintro ⟨e, holds⟩
  rw [Holds, vacant] at holds
  cases holds

theorem holds_set {slots : List (Option α)} {i j : Nat} {slot : Option α} {e : α}
    (other : i ≠ j) : Holds (slots.set i slot) j e ↔ Holds slots j e := by
  rw [Holds, List.getElem?_set_ne other]

theorem holds_set_self {slots : List (Option α)} {i : Nat} {e : α} (inside : i < slots.length) :
    Holds (slots.set i (some e)) i e := by
  rw [Holds, List.getElem?_set_self inside]

theorem Filled.set {slots : List (Option α)} {i j : Nat} {e : α} (filled : Filled slots j) :
    Filled (slots.set i (some e)) j := by
  by_cases same : i = j
  · subst same
    obtain ⟨_, holds⟩ := filled
    exact ⟨e, holds_set_self holds.lt⟩
  · obtain ⟨old, holds⟩ := filled
    exact ⟨old, (holds_set same).mpr holds⟩

/-! ## Contents -/

theorem mem_contents {slots : List (Option α)} {e : α} :
    e ∈ slots.reduceOption ↔ ∃ i, Holds slots i e := by
  rw [List.reduceOption_mem_iff, List.mem_iff_getElem?]

theorem contents_fill {slots : List (Option α)} {i : Nat} (vacant : Vacant slots i) (e : α) :
    (slots.set i (some e)).reduceOption.Perm (e :: slots.reduceOption) := by
  induction slots generalizing i with
  | nil => simp [Vacant] at vacant
  | cons slot rest ih =>
    cases i with
    | zero =>
      have isNone : slot = none := by simpa [Vacant] using vacant
      rw [isNone, List.set_cons_zero, List.reduceOption_cons_of_some,
        List.reduceOption_cons_of_none]
    | succ i =>
      have later := ih (i := i) (by simpa [Vacant] using vacant)
      rw [List.set_cons_succ]
      cases slot with
      | none => exact later
      | some first =>
        rw [List.reduceOption_cons_of_some, List.reduceOption_cons_of_some]
        exact (later.cons first).trans (List.Perm.swap e first _)

theorem set_same {slots : List (Option α)} {i : Nat} {slot : Option α}
    (same : slots[i]? = some slot) : slots.set i slot = slots := by
  obtain ⟨inside, rfl⟩ := List.getElem?_eq_some_iff.mp same
  exact List.set_getElem_self inside

theorem contents_empty {slots : List (Option α)} {i : Nat} {e : α} (holds : Holds slots i e) :
    slots.reduceOption.Perm (e :: (slots.set i none).reduceOption) := by
  have vacant : Vacant (slots.set i none) i := by
    rw [Vacant, List.getElem?_set_self holds.lt]
  have filled := contents_fill vacant e
  rwa [List.set_set, set_same holds] at filled

/-! ## Chains -/

/-- No slot between the home of an entry and its own slot is vacant. -/
structure Chained (home : α → Nat) (slots : List (Option α)) : Prop where
  bound : ∀ i e, Holds slots i e → home e < slots.length
  path : ∀ i e, Holds slots i e → ∀ j, j < slots.length →
    dist slots.length (home e) j < dist slots.length (home e) i → Filled slots j

theorem Chained.none (home : α → Nat) (n : Nat) :
    Chained home (List.replicate n (Option.none : Option α)) := by
  have empty : ∀ i e, ¬Holds (List.replicate n (Option.none : Option α)) i e := by
    intro i e holds
    rw [Holds, List.getElem?_replicate] at holds
    split at holds <;> cases holds
  exact ⟨fun i e holds => absurd holds (empty i e), fun i e holds => absurd holds (empty i e)⟩

def Crowded (slots : List (Option α)) (start goal : Nat) : Prop :=
  ∀ j, j < slots.length → dist slots.length start j < dist slots.length start goal →
    Filled slots j

theorem Chained.fill {home : α → Nat} {slots : List (Option α)} (chained : Chained home slots)
    {i : Nat} {e : α} (vacant : Vacant slots i) (isHome : home e < slots.length)
    (crowded : Crowded slots (home e) i) : Chained home (slots.set i (some e)) := by
  have split : ∀ j x, Holds (slots.set i (some e)) j x → j = i ∧ x = e ∨ Holds slots j x := by
    intro j x holds
    by_cases same : i = j
    · subst same
      rw [Holds, List.getElem?_set_self vacant.lt] at holds
      cases holds
      exact Or.inl ⟨rfl, rfl⟩
    · exact Or.inr ((holds_set same).mp holds)
  constructor
  · intro j x holds
    rw [List.length_set]
    rcases split j x holds with ⟨_, rfl⟩ | old
    · exact isHome
    · exact chained.bound j x old
  · intro j x holds k inside between
    rw [List.length_set] at inside between
    rcases split j x holds with ⟨rfl, rfl⟩ | old
    · exact (crowded k inside between).set
    · exact (chained.path j x old k inside between).set

theorem Chained.replace {home : α → Nat} {slots : List (Option α)} (chained : Chained home slots)
    {i : Nat} {old e : α} (holds : Holds slots i old) (same : home e = home old) :
    Chained home (slots.set i (some e)) := by
  have split : ∀ j x, Holds (slots.set i (some e)) j x → ∃ y, home x = home y ∧ Holds slots j y := by
    intro j x isX
    by_cases here : i = j
    · subst here
      rw [Holds, List.getElem?_set_self holds.lt] at isX
      cases isX
      exact ⟨old, same, holds⟩
    · exact ⟨x, rfl, (holds_set here).mp isX⟩
  constructor
  · intro j x isX
    obtain ⟨y, isHome, isY⟩ := split j x isX
    rw [List.length_set, isHome]
    exact chained.bound j y isY
  · intro j x isX k inside between
    obtain ⟨y, isHome, isY⟩ := split j x isX
    rw [List.length_set] at inside between
    rw [isHome] at between
    exact (chained.path j y isY k inside between).set

/-! ## Scans -/

def scan (step : Nat → Nat) (p : Option α → Bool) (slots : List (Option α)) : Nat → Nat → Option Nat
  | 0, _ => none
  | fuel + 1, i =>
      match slots[i]? with
      | none => none
      | some slot => if p slot then some i else scan step p slots fuel (step i)

/-- `goal` is the first slot from `start` on that satisfies `p`. -/
structure First (p : Option α → Bool) (slots : List (Option α)) (start goal : Nat) : Prop where
  found : ∃ slot, slots[goal]? = some slot ∧ p slot = true
  before : ∀ j slot, slots[j]? = some slot →
    dist slots.length start j < dist slots.length start goal → p slot = false

theorem First.lt {p : Option α → Bool} {slots : List (Option α)} {start goal : Nat}
    (first : First p slots start goal) : goal < slots.length := by
  obtain ⟨_, isSlot, _⟩ := first.found
  exact (List.getElem?_eq_some_iff.mp isSlot).1

theorem First.exists {p : Option α → Bool} {slots : List (Option α)} {start goal : Nat}
    {slot : Option α} (isSlot : slots[goal]? = some slot) (good : p slot = true) :
    ∃ first, First p slots start first ∧
      dist slots.length start first ≤ dist slots.length start goal := by
  induction measure : dist slots.length start goal using Nat.strongRecOn
    generalizing goal slot with
  | _ steps ih =>
    by_cases isFirst : ∀ j slot, slots[j]? = some slot →
        dist slots.length start j < dist slots.length start goal → p slot = false
    · exact ⟨goal, ⟨⟨slot, isSlot, good⟩, isFirst⟩, Nat.le_of_eq measure⟩
    · simp only [not_forall, Bool.not_eq_false] at isFirst
      obtain ⟨j, other, isOther, earlier, alsoGood⟩ := isFirst
      obtain ⟨first, isFirst, le⟩ := ih _ (measure ▸ earlier) isOther alsoGood rfl
      exact ⟨first, isFirst, by omega⟩

theorem scan_first {step : Nat → Nat} {p : Option α → Bool} {slots : List (Option α)}
    (steps : ∀ i, i < slots.length → step i = next slots.length i) {start goal : Nat}
    (first : First p slots start goal) (inside : start < slots.length) (fuel i : Nat)
    (here : i < slots.length) (le : dist slots.length start i ≤ dist slots.length start goal)
    (enough : dist slots.length start goal < dist slots.length start i + fuel) :
    scan step p slots fuel i = some goal := by
  have inGoal := first.lt
  induction fuel generalizing i with
  | zero => omega
  | succ fuel ih =>
    have isSlot : slots[i]? = some slots[i] := List.getElem?_eq_getElem here
    simp only [scan, isSlot]
    by_cases there : i = goal
    · subst there
      obtain ⟨slot, isSlot', good⟩ := first.found
      rw [isSlot] at isSlot'
      cases isSlot'
      rw [if_pos good]
    · have lt : dist slots.length start i < dist slots.length start goal := by
        apply Nat.lt_of_le_of_ne le
        intro same
        exact there (dist_inj inside here inGoal same)
      have notYet := first.before i _ isSlot lt
      have forward : next slots.length i ≠ start := by
        intro around
        have remains := dist_from_next here inGoal there
        have whole := dist_split inside here inGoal le
        have bound := dist_lt inside inGoal
        rw [around] at remains
        omega
      have onward := dist_next inside forward
      rw [notYet, if_neg Bool.false_ne_true, steps i here]
      exact ih _ (next_lt here) (by omega) (by omega)

theorem scan_eq {step : Nat → Nat} {p : Option α → Bool} {slots : List (Option α)}
    (steps : ∀ i, i < slots.length → step i = next slots.length i) {start goal : Nat}
    (first : First p slots start goal) (inside : start < slots.length) :
    scan step p slots slots.length start = some goal := by
  apply scan_first steps first inside _ start inside
  · rw [dist_self]
    exact Nat.zero_le _
  · have bound := dist_lt inside first.lt
    omega

/-! ## Holes -/

/-- An entry has been taken out at `hole` (its slot is not written yet), and the
slots up to `at_` have been looked at. Only entries from `at_` on may have the
hole on the way from their home. Somewhere behind there is the vacant slot
`rest`. -/
structure Hollow (home : α → Nat) (slots : List (Option α)) (hole at_ rest : Nat) : Prop where
  bound : ∀ i e, Holds slots i e → home e < slots.length
  path : ∀ i e, i ≠ hole → Holds slots i e → ∀ j, j < slots.length →
    dist slots.length (home e) j < dist slots.length (home e) i → j ≠ hole → Filled slots j
  ahead : ∀ i e, i ≠ hole → Holds slots i e →
    dist slots.length (home e) hole < dist slots.length (home e) i →
      dist slots.length hole at_ ≤ dist slots.length hole i
  filled : Filled slots hole
  inside : at_ < slots.length
  vacant : Vacant slots rest
  behind : dist slots.length hole at_ ≤ dist slots.length hole rest
  moved : hole ≠ at_

variable {home : α → Nat} {slots : List (Option α)} {hole at_ rest : Nat}

theorem Hollow.hole_lt (hollow : Hollow home slots hole at_ rest) : hole < slots.length := by
  obtain ⟨_, holds⟩ := hollow.filled
  exact holds.lt

theorem Hollow.rest_ne (hollow : Hollow home slots hole at_ rest) : hole ≠ rest := by
  rintro rfl
  exact hollow.vacant.not_filled hollow.filled

theorem Chained.hollow (chained : Chained home slots) (filled : Filled slots hole)
    (vacant : Vacant slots rest) : Hollow home slots hole (next slots.length hole) rest := by
  obtain ⟨e, holds⟩ := filled
  have other : hole ≠ rest := by
    rintro rfl
    exact vacant.not_filled ⟨e, holds⟩
  have inside := holds.lt
  have differs := next_ne vacant.lt other
  have one : dist slots.length hole (next slots.length hole) = 1 := by
    rw [dist_next inside (Ne.symm differs), dist_self]
  refine ⟨chained.bound, ?_, ?_, ⟨e, holds⟩, next_lt inside, vacant, ?_, differs⟩
  · intro i x _ holds j inJ between _
    exact chained.path i x holds j inJ between
  · intro i x apart holds _
    have positive : dist slots.length hole i ≠ 0 := by
      rw [Ne, dist_eq_zero inside]
      exact Ne.symm apart
    omega
  · have positive : dist slots.length hole rest ≠ 0 := by
      rw [Ne, dist_eq_zero inside]
      exact other
    omega

theorem Hollow.finish (hollow : Hollow home slots hole at_ rest) (vacant : Vacant slots at_) :
    Chained home (slots.set hole none) := by
  have inHole := hollow.hole_lt
  have split : ∀ j x, Holds (slots.set hole none) j x → j ≠ hole ∧ Holds slots j x := by
    intro j x holds
    by_cases same : hole = j
    · subst same
      rw [Holds, List.getElem?_set_self inHole] at holds
      cases holds
    · exact ⟨Ne.symm same, (holds_set same).mp holds⟩
  constructor
  · intro i e holds
    rw [List.length_set]
    exact hollow.bound i e (split i e holds).2
  intro i e holds j inside between
  rw [List.length_set] at inside between
  obtain ⟨apart, old⟩ := split i e holds
  have isHome := hollow.bound i e old
  have away : j ≠ hole := by
    rintro rfl
    have le := hollow.ahead i e apart old between
    have notHere : at_ ≠ i := by
      rintro rfl
      exact vacant.not_filled ⟨e, old⟩
    have positive : dist slots.length at_ i ≠ 0 := by
      rw [Ne, dist_eq_zero hollow.inside]
      exact notHere
    have onWay : dist slots.length (home e) at_ < dist slots.length (home e) i := by
      have through := dist_through isHome inHole hollow.inside old.lt (Nat.le_of_lt between) le
      omega
    exact vacant.not_filled
      (hollow.path i e apart old at_ hollow.inside onWay (Ne.symm hollow.moved))
  obtain ⟨x, isX⟩ := hollow.path i e apart old j inside between away
  exact ⟨x, (holds_set (Ne.symm away)).mpr isX⟩

/-- An entry that does not have the hole on its way stays. -/
theorem Hollow.keep (hollow : Hollow home slots hole at_ rest) {e : α} (holds : Holds slots at_ e)
    (stays : dist slots.length (home e) at_ ≤ dist slots.length (home e) hole) :
    Hollow home slots hole (next slots.length at_) rest := by
  have inHole := hollow.hole_lt
  have inAt := hollow.inside
  have notRest : at_ ≠ rest := by
    rintro rfl
    exact hollow.vacant.not_filled ⟨e, holds⟩
  have notAround : next slots.length at_ ≠ hole := by
    intro around
    have remains := dist_from_next inAt hollow.vacant.lt notRest
    have whole := dist_split inHole inAt hollow.vacant.lt hollow.behind
    have bound := dist_lt inHole hollow.vacant.lt
    rw [around] at remains
    omega
  have onward := dist_next inHole notAround
  have later : ∀ i, i < slots.length → i ≠ at_ →
      dist slots.length hole at_ ≤ dist slots.length hole i →
        dist slots.length hole (next slots.length at_) ≤ dist slots.length hole i := by
    intro i inI apart le
    rw [onward]
    apply Nat.lt_of_le_of_ne le
    intro same
    exact apart (dist_inj inHole inAt inI same).symm
  refine ⟨hollow.bound, hollow.path, ?_, hollow.filled, next_lt inAt, hollow.vacant, ?_,
    Ne.symm notAround⟩
  · intro i x apart isX onWay
    apply later i isX.lt _ (hollow.ahead i x apart isX onWay)
    rintro rfl
    rw [Holds, holds] at isX
    cases isX
    omega
  · exact later rest hollow.vacant.lt (Ne.symm notRest) hollow.behind

/-- An entry that has the hole on its way moves into it and leaves a hole. -/
theorem Hollow.move (hollow : Hollow home slots hole at_ rest) {e : α} (holds : Holds slots at_ e)
    (moves : dist slots.length (home e) hole < dist slots.length (home e) at_) :
    Hollow home (slots.set hole (some e)) at_ (next slots.length at_) rest := by
  have inHole := hollow.hole_lt
  have inAt := hollow.inside
  have notRest : at_ ≠ rest := by
    rintro rfl
    exact hollow.vacant.not_filled ⟨e, holds⟩
  have split : ∀ j x, Holds (slots.set hole (some e)) j x →
      j = hole ∧ x = e ∨ j ≠ hole ∧ Holds slots j x := by
    intro j x isX
    by_cases same : hole = j
    · subst same
      rw [Holds, List.getElem?_set_self inHole] at isX
      cases isX
      exact Or.inl ⟨rfl, rfl⟩
    · exact Or.inr ⟨Ne.symm same, (holds_set same).mp isX⟩
  have vacant : Vacant (slots.set hole (some e)) rest := by
    rw [Vacant, List.getElem?_set_ne hollow.rest_ne]
    exact hollow.vacant
  have atFilled : Filled (slots.set hole (some e)) at_ :=
    ⟨e, (holds_set hollow.moved).mpr holds⟩
  have filled : ∀ j, j ≠ hole → Filled slots j → Filled (slots.set hole (some e)) j := by
    rintro j apart ⟨x, isX⟩
    exact ⟨x, (holds_set (Ne.symm apart)).mpr isX⟩
  refine ⟨?_, ?_, ?_, atFilled, ?_, vacant, ?_, next_ne hollow.vacant.lt notRest⟩
  · intro i x isX
    rw [List.length_set]
    rcases split i x isX with ⟨_, rfl⟩ | ⟨_, old⟩
    · exact hollow.bound at_ x holds
    · exact hollow.bound i x old
  · intro i x apart isX j inside between away
    rw [List.length_set] at inside between
    by_cases isHole : j = hole
    · subst isHole
      exact ⟨e, holds_set_self inHole⟩
    apply filled j isHole
    rcases split i x isX with ⟨rfl, rfl⟩ | ⟨apart', old⟩
    · exact hollow.path at_ x (Ne.symm hollow.moved) holds j inside (by omega) isHole
    · exact hollow.path i x apart' old j inside between isHole
  · intro i x apart _ _
    have positive : dist slots.length at_ i ≠ 0 := by
      rw [Ne, dist_eq_zero inAt]
      exact Ne.symm apart
    have one : dist slots.length at_ (next slots.length at_) = 1 := by
      rw [dist_next inAt (Ne.symm (next_ne hollow.vacant.lt notRest)), dist_self]
    rw [List.length_set, one]
    omega
  · rw [List.length_set]
    exact next_lt inAt
  · have positive : dist slots.length at_ rest ≠ 0 := by
      rw [Ne, dist_eq_zero inAt]
      exact notRest
    have one : dist slots.length at_ (next slots.length at_) = 1 := by
      rw [dist_next inAt (Ne.symm (next_ne hollow.vacant.lt notRest)), dist_self]
    rw [List.length_set, one]
    omega

/-- A move does not change what the slots hold besides the hole. -/
theorem contents_move {e : α} (filled : Filled slots hole) (holds : Holds slots at_ e)
    (moved : hole ≠ at_) :
    ((slots.set hole (some e)).set at_ none).reduceOption.Perm
      (slots.set hole none).reduceOption := by
  obtain ⟨old, isOld⟩ := filled
  have here : Holds (slots.set hole (some e)) at_ e := (holds_set moved).mpr holds
  have there : Holds (slots.set hole (some e)) hole e := holds_set_self isOld.lt
  have one := contents_empty here
  have two := contents_empty there
  rw [List.set_set] at two
  exact (one.symm.trans two).cons_inv

end Aholyc.Lib.Probing
