import Mathlib.Data.List.Range
import Mathlib.Data.Nat.Find
import Mathlib.Logic.Function.Basic
import Mathlib.Tactic.Common
import Aholyc.Lib.Runs

/-!
# Slices of strings (lib/text/strs.hc)

A slice is a pair of addresses, and the slices lie in variables, of which a call
may get the same twice. Splitting takes a separator out of a slice and
tokenising goes through the runs between separators.
-/

namespace Aholyc.Strs

open Aholyc.Lib

structure CStrs where
  a : Nat
  b : Nat
  deriving DecidableEq, Repr

abbrev Memory := Nat → Option UInt8

/-- The slices in their variables; a pointer to a variable is its number, and
NULL is 0. -/
abbrev Store := Nat → CStrs

def setA (store : Store) (pointer a : Nat) : Store :=
  Function.update store pointer { store pointer with a := a }

def setB (store : Store) (pointer b : Nat) : Store :=
  Function.update store pointer { store pointer with b := b }

def strsValid (store : Store) (slice : Nat) : Bool :=
  slice != 0 && ((store slice).a == 0 && (store slice).b == 0 ||
    (store slice).a != 0 && (store slice).b >= (store slice).a)

def strsLen (store : Store) (slice : Nat) : Nat :=
  if slice = 0 ∨ (store slice).a = 0 ∨ (store slice).b ≤ (store slice).a then 0
  else (store slice).b - (store slice).a

def strsEmpty (store : Store) (slice : Nat) : Bool :=
  slice == 0 || (store slice).a == 0 || (store slice).b <= (store slice).a

/-! ## Searching (runtime/rt.c) -/

/-- `memchr` up to the address `stop`; 0 is NULL, and a read outside of the
memory has no result. -/
def chrLoop (memory : Memory) (character p stop : Nat) : Option Nat :=
  if p < stop then
    (memory p).bind fun byte =>
      if byte.toNat = character then some p else chrLoop memory character (p + 1) stop
  else some 0
termination_by stop - p

def memChr (memory : Memory) (data : Nat) (character : Int) (n : Nat) : Option Nat :=
  if data ≠ 0 ∧ n > 0 then chrLoop memory (character % 256).toNat data (data + n) else some 0

def memSame (memory : Memory) (one two : Nat) : Nat → Option Bool
  | 0 => some true
  | n + 1 =>
    (memory one).bind fun byte => (memory two).bind fun other =>
      if byte = other then memSame memory (one + 1) (two + 1) n else some false

/-- Whether the needle of `n` bytes, whose first is at `candidate`, is there. -/
def matchesAt (memory : Memory) (candidate needle n : Nat) : Option Bool :=
  (memory (candidate + n - 1)).bind fun byte => (memory (needle + n - 1)).bind fun last =>
    if byte ≠ last then some false
    else if n = 2 then some true
    else memSame memory (candidate + 1) (needle + 1) (n - 2)

def memMemLoop (memory : Memory) (first needle n p left : Nat) : Option Nat :=
  if left = 0 then some 0
  else
    (chrLoop memory first p (p + left)).bind fun candidate =>
      if candidate = 0 then some 0
      else
        (matchesAt memory candidate needle n).bind fun found =>
          if found then some candidate
          else memMemLoop memory first needle n (candidate + 1) (left - (candidate - p) - 1)
termination_by left

def memMem (memory : Memory) (data length needle n : Nat) : Option Nat :=
  if n = 0 then some data
  else if data = 0 ∨ needle = 0 ∨ length < n then some 0
  else
    (memory needle).bind fun first =>
      if n = 1 then chrLoop memory first.toNat data (data + length)
      else memMemLoop memory first.toNat needle n data (length - n + 1)

/-! ## Sets of characters -/

def hasLoop (memory : Memory) (character p stop : Nat) : Option Bool :=
  if p < stop then
    (memory p).bind fun byte =>
      if byte.toNat = character then some true else hasLoop memory character (p + 1) stop
  else some false
termination_by stop - p

def strsHasC (memory : Memory) (store : Store) (set character : Nat) : Option Bool :=
  if !strsValid store set then some false
  else hasLoop memory character (store set).a (store set).b

/-- The loops of `StrsFindAny` over a slice and, for each of its characters,
over the set. -/
def findAnyLoop (memory : Memory) (p stop first last : Nat) : Option Nat :=
  if p < stop then
    (memory p).bind fun byte =>
      (hasLoop memory byte.toNat first last).bind fun found =>
        if found then some p else findAnyLoop memory (p + 1) stop first last
  else some 0
termination_by stop - p

def strsFind (memory : Memory) (store : Store) (slice needle : Nat) : Option Nat :=
  if !strsValid store slice || !strsValid store needle then some 0
  else if strsLen store needle = 0 then some (store slice).a
  else memMem memory (store slice).a (strsLen store slice) (store needle).a (strsLen store needle)

def strsFindC (memory : Memory) (store : Store) (slice : Nat) (character : Int) : Option Nat :=
  if !strsValid store slice then some 0
  else memChr memory (store slice).a character (strsLen store slice)

def strsFindAny (memory : Memory) (store : Store) (slice set : Nat) : Option Nat :=
  if !strsValid store slice || !strsValid store set || strsEmpty store set then some 0
  else if strsLen store set = 1 then
    (memory (store set).a).bind fun byte =>
      memChr memory (store slice).a byte.toNat (strsLen store slice)
  else findAnyLoop memory (store slice).a (store slice).b (store set).a (store set).b

/-! ## Splitting -/

/-- The end of a split at `position`, which is 0 without a separator. -/
def splitAt (store : Store) (slice head tail position length : Nat) : Bool × Store :=
  let stop := (store slice).b
  let store := setA store head (store slice).a
  if position = 0 then
    (false, setB (setA (setB store head stop) tail stop) tail stop)
  else
    (true, setB (setA (setB store head position) tail (position + length)) tail stop)

def strsSplitC (memory : Memory) (slice : Nat) (separator : Int) (head tail : Nat)
    (store : Store) : Option (Bool × Store) :=
  if !strsValid store slice || head == 0 || tail == 0 || head == tail then some (false, store)
  else
    (strsFindC memory store slice separator).map fun position =>
      splitAt store slice head tail position 1

def strsSplitAny (memory : Memory) (slice separators head tail : Nat) (store : Store) :
    Option (Bool × Store) :=
  if !strsValid store slice || !strsValid store separators || head == 0 || tail == 0 ||
      head == tail then some (false, store)
  else
    (strsFindAny memory store slice separators).map fun position =>
      splitAt store slice head tail position 1

def strsSplit (memory : Memory) (slice separator head tail : Nat) (store : Store) :
    Option (Bool × Store) :=
  if !strsValid store slice || !strsValid store separator || head == 0 || tail == 0 ||
      head == tail then some (false, store)
  else
    let length := strsLen store separator
    (if length ≠ 0 then strsFind memory store slice separator else some 0).map fun position =>
      splitAt store slice head tail position length

/-! ## Tokens -/

/-- `while (slice->a < slice->b && StrsHasC(set, *slice->a) == has) slice->a++;` -/
def advanceWhile (has : Bool) (memory : Memory) (slice set : Nat) (store : Store) : Option Store :=
  if (store slice).a < (store slice).b then
    (memory (store slice).a).bind fun byte =>
      (strsHasC memory store set byte.toNat).bind fun found =>
        if found = has then
          advanceWhile has memory slice set (setA store slice ((store slice).a + 1))
        else some store
  else some store
termination_by (store slice).b - (store slice).a
decreasing_by
  simp only [setA, Function.update_self]
  omega

def strsSkipChars (memory : Memory) (slice set : Nat) (store : Store) : Option Store :=
  if !strsValid store slice || !strsValid store set then some store
  else advanceWhile true memory slice set store

def strsNextToken (memory : Memory) (slice separators result : Nat) (store : Store) :
    Option (Bool × Store) :=
  if !strsValid store slice || !strsValid store separators || result == 0 || result == slice then
    some (false, store)
  else
    (strsSkipChars memory slice separators store).bind fun store =>
      if strsEmpty store slice then
        some (false, setB (setA store result (store slice).b) result (store slice).b)
      else
        (advanceWhile false memory slice separators (setA store result (store slice).a)).map
          fun store => (true, setB store result (store slice).a)

def nextTokens (memory : Memory) (slice separators result : Nat) :
    Nat → Store → Option (List (Bool × CStrs) × Store)
  | 0, store => some ([], store)
  | n + 1, store =>
    (strsNextToken memory slice separators result store).bind fun call =>
      (nextTokens memory slice separators result n call.2).map fun calls =>
        ((call.1, call.2 result) :: calls.1, calls.2)

/-! ## First places -/

def Readable (memory : Memory) (first last : Nat) : Prop :=
  ∀ place, first ≤ place → place < last → ∃ byte, memory place = some byte

def Finds (holds : Nat → Prop) (first last found : Nat) : Prop :=
  found = 0 ∧ (∀ place, first ≤ place → place < last → ¬holds place) ∨
    first ≤ found ∧ found < last ∧ holds found ∧
      ∀ place, first ≤ place → place < found → ¬holds place

variable {holds : Nat → Prop} {first last : Nat}

theorem Finds.none (le : last ≤ first) :
    Finds holds first last 0 := Or.inl ⟨rfl, fun _ _ _ => by omega⟩

theorem Finds.here (less : first < last) (isHere : holds first) : Finds holds first last first :=
  Or.inr ⟨Nat.le_refl _, less, isHere, fun _ _ _ => by omega⟩

/-- The search goes on behind places without the property. -/
theorem Finds.skip {next found : Nat} (le : first ≤ next)
    (without : ∀ place, first ≤ place → place < next → ¬holds place)
    (finds : Finds holds next last found) : Finds holds first last found := by
  cases finds with
  | inl nowhere =>
    refine Or.inl ⟨nowhere.1, ?_⟩
    intro place above below
    by_cases before : place < next
    · exact without place above before
    · exact nowhere.2 place (by omega) below
  | inr somewhere =>
    obtain ⟨above, below, isThere, others⟩ := somewhere
    refine Or.inr ⟨by omega, below, isThere, ?_⟩
    intro place above' below'
    by_cases before : place < next
    · exact without place above' before
    · exact others place (by omega) below'

theorem Finds.congr {holds' : Nat → Prop} {found : Nat} (finds : Finds holds first last found)
    (same : ∀ place, first ≤ place → place < last → (holds place ↔ holds' place)) :
    Finds holds' first last found := by
  cases finds with
  | inl nowhere =>
    refine Or.inl ⟨nowhere.1, ?_⟩
    intro place above below
    exact mt (same place above below).mpr (nowhere.2 place above below)
  | inr somewhere =>
    obtain ⟨above, below, isThere, others⟩ := somewhere
    refine Or.inr ⟨above, below, (same found above below).mp isThere, ?_⟩
    intro place above' below'
    exact mt (same place above' (by omega)).mpr (others place above' below')

def IsAt (memory : Memory) (character place : Nat) : Prop :=
  ∃ byte, memory place = some byte ∧ byte.toNat = character

section

variable {memory : Memory}

variable {place data : Nat} {haystack word : List UInt8}

theorem isAt_iff {character : Nat} {byte : UInt8} (isByte : memory place = some byte) :
    IsAt memory character place ↔ byte.toNat = character := by
  unfold IsAt
  rw [isByte]
  simp

theorem Readable.tail (readable : Readable memory first last) : Readable memory (first + 1) last :=
  fun place above below => readable place (by omega) below

theorem chrLoop_finds (character : Nat) {p stop : Nat} (readable : Readable memory p stop) :
    ∃ found, chrLoop memory character p stop = some found ∧
      Finds (IsAt memory character) p stop found := by
  induction steps : stop - p generalizing p with
  | zero =>
    unfold chrLoop
    rw [if_neg (by omega)]
    exact ⟨0, rfl, .none (by omega)⟩
  | succ n ih =>
    obtain ⟨byte, isByte⟩ := readable p (Nat.le_refl _) (by omega)
    unfold chrLoop
    rw [if_pos (by omega), isByte, Option.bind_some]
    by_cases same : byte.toNat = character
    · rw [if_pos same]
      exact ⟨p, rfl, .here (by omega) ((isAt_iff isByte).mpr same)⟩
    · obtain ⟨found, searched, finds⟩ := ih readable.tail (by omega)
      rw [if_neg same, searched]
      refine ⟨found, rfl, finds.skip (Nat.le_succ p) ?_⟩
      intro place above below
      have isHere : place = p := by omega
      rw [isHere, isAt_iff isByte]
      exact same

theorem hasLoop_spec (character : Nat) {p stop : Nat} (readable : Readable memory p stop) :
    ∃ found, hasLoop memory character p stop = some found ∧
      (found = true ↔ ∃ place, p ≤ place ∧ place < stop ∧ IsAt memory character place) := by
  induction steps : stop - p generalizing p with
  | zero =>
    unfold hasLoop
    rw [if_neg (by omega)]
    refine ⟨false, rfl, iff_of_false Bool.false_ne_true ?_⟩
    rintro ⟨place, above, below, _⟩
    omega
  | succ n ih =>
    obtain ⟨byte, isByte⟩ := readable p (Nat.le_refl _) (by omega)
    unfold hasLoop
    rw [if_pos (by omega), isByte, Option.bind_some]
    by_cases same : byte.toNat = character
    · rw [if_pos same]
      exact ⟨true, rfl, iff_of_true rfl
        ⟨p, Nat.le_refl _, by omega, (isAt_iff isByte).mpr same⟩⟩
    obtain ⟨found, searched, isFound⟩ := ih readable.tail (by omega)
    rw [if_neg same, searched]
    refine ⟨found, rfl, isFound.trans ?_⟩
    constructor
    · rintro ⟨place, above, below, isThere⟩
      exact ⟨place, by omega, below, isThere⟩
    · rintro ⟨place, above, below, isThere⟩
      by_cases isHere : place = p
      · rw [isHere, isAt_iff isByte] at isThere
        exact absurd isThere same
      · exact ⟨place, by omega, below, isThere⟩

def InSet (memory : Memory) (set : CStrs) (place : Nat) : Prop :=
  ∃ other, set.a ≤ other ∧ other < set.b ∧ memory other = memory place

theorem inSet_iff {set : CStrs} {byte : UInt8} (isByte : memory place = some byte) :
    InSet memory set place ↔
      ∃ other, set.a ≤ other ∧ other < set.b ∧ IsAt memory byte.toNat other := by
  unfold InSet IsAt
  rw [isByte]
  constructor
  · rintro ⟨other, above, below, same⟩
    exact ⟨other, above, below, byte, same, rfl⟩
  · rintro ⟨other, above, below, found, isFound, same⟩
    rw [UInt8.toNat_inj.mp same] at isFound
    exact ⟨other, above, below, isFound⟩

theorem findAnyLoop_finds {set : CStrs} (isSet : Readable memory set.a set.b) {p stop : Nat}
    (readable : Readable memory p stop) :
    ∃ found, findAnyLoop memory p stop set.a set.b = some found ∧
      Finds (InSet memory set) p stop found := by
  induction steps : stop - p generalizing p with
  | zero =>
    unfold findAnyLoop
    rw [if_neg (by omega)]
    exact ⟨0, rfl, .none (by omega)⟩
  | succ n ih =>
    obtain ⟨byte, isByte⟩ := readable p (Nat.le_refl _) (by omega)
    obtain ⟨has, searched, isHas⟩ := hasLoop_spec byte.toNat isSet
    rw [← inSet_iff isByte] at isHas
    unfold findAnyLoop
    rw [if_pos (by omega), isByte, Option.bind_some, searched, Option.bind_some]
    cases has with
    | true => exact ⟨p, rfl, .here (by omega) (isHas.mp rfl)⟩
    | false =>
      obtain ⟨found, searched', finds⟩ := ih readable.tail (by omega)
      simp only [Bool.false_eq_true, if_false, searched']
      refine ⟨found, rfl, finds.skip (Nat.le_succ p) ?_⟩
      intro place above below
      have isHere : place = p := by omega
      rw [isHere]
      exact mt isHas.mpr Bool.false_ne_true

def Occurs (memory : Memory) (needle n place : Nat) : Prop :=
  ∀ i < n, memory (place + i) = memory (needle + i)

theorem memSame_spec {one two n : Nat} (isOne : Readable memory one (one + n))
    (isTwo : Readable memory two (two + n)) :
    ∃ same, memSame memory one two n = some same ∧ (same = true ↔ Occurs memory two n one) := by
  induction n generalizing one two with
  | zero => exact ⟨true, rfl, iff_of_true rfl fun i less => absurd less (Nat.not_lt_zero i)⟩
  | succ n ih =>
    obtain ⟨byte, isByte⟩ := isOne one (Nat.le_refl _) (by omega)
    obtain ⟨other, isOther⟩ := isTwo two (Nat.le_refl _) (by omega)
    unfold memSame
    rw [isByte, Option.bind_some, isOther, Option.bind_some]
    by_cases equal : byte = other
    · obtain ⟨same, compared, isSame⟩ := @ih (one + 1) (two + 1)
        (fun place above below => isOne place (by omega) (by omega))
        (fun place above below => isTwo place (by omega) (by omega))
      rw [if_pos equal, compared]
      refine ⟨same, rfl, isSame.trans ?_⟩
      constructor
      · intro occurs i less
        cases i with
        | zero => rw [Nat.add_zero, Nat.add_zero, isByte, isOther, equal]
        | succ i =>
          have isNext := occurs i (by omega)
          rwa [Nat.add_assoc, Nat.add_assoc, Nat.add_comm 1 i] at isNext
      · intro occurs i less
        have isNext := occurs (i + 1) (by omega)
        rwa [Nat.add_comm i 1, ← Nat.add_assoc, ← Nat.add_assoc] at isNext
    · rw [if_neg equal]
      refine ⟨false, rfl, iff_of_false Bool.false_ne_true ?_⟩
      intro occurs
      have isFirst := occurs 0 (Nat.succ_pos n)
      rw [Nat.add_zero, Nat.add_zero, isByte, isOther] at isFirst
      exact equal (Option.some.inj isFirst)

theorem matchesAt_spec {candidate needle n : Nat} (two : 2 ≤ n)
    (first : memory candidate = memory needle)
    (isText : Readable memory candidate (candidate + n))
    (isNeedle : Readable memory needle (needle + n)) :
    ∃ found, matchesAt memory candidate needle n = some found ∧
      (found = true ↔ Occurs memory needle n candidate) := by
  obtain ⟨byte, isByte⟩ := isText (candidate + n - 1) (by omega) (by omega)
  obtain ⟨last, isLast⟩ := isNeedle (needle + n - 1) (by omega) (by omega)
  have isEnd : candidate + (n - 1) = candidate + n - 1 := by omega
  have isEnd' : needle + (n - 1) = needle + n - 1 := by omega
  unfold matchesAt
  rw [isByte, Option.bind_some, isLast, Option.bind_some]
  by_cases differs : byte ≠ last
  · rw [if_pos differs]
    refine ⟨false, rfl, iff_of_false Bool.false_ne_true ?_⟩
    intro occurs
    have same := occurs (n - 1) (by omega)
    rw [isEnd, isEnd', isByte, isLast] at same
    exact differs (Option.some.inj same)
  · have equal : byte = last := not_not.mp differs
    rw [if_neg differs]
    by_cases isTwo : n = 2
    · rw [if_pos isTwo]
      refine ⟨true, rfl, iff_of_true rfl ?_⟩
      intro i less
      by_cases isZero : i = 0
      · rw [isZero]
        exact first
      · have isOne : i = n - 1 := by omega
        rw [isOne, isEnd, isEnd', isByte, isLast, equal]
    · obtain ⟨same, compared, isSame⟩ := @memSame_spec memory (candidate + 1) (needle + 1) (n - 2)
        (fun place above below => isText place (by omega) (by omega))
        (fun place above below => isNeedle place (by omega) (by omega))
      rw [if_neg isTwo, compared]
      refine ⟨same, rfl, isSame.trans ?_⟩
      constructor
      · intro occurs i less
        by_cases isZero : i = 0
        · rw [isZero]
          exact first
        · by_cases isLast' : i = n - 1
          · rw [isLast', isEnd, isEnd', isByte, isLast, equal]
          · have isInner := occurs (i - 1) (by omega)
            rwa [show candidate + 1 + (i - 1) = candidate + i by omega,
              show needle + 1 + (i - 1) = needle + i by omega] at isInner
      · intro occurs i less
        have isInner := occurs (i + 1) (by omega)
        rwa [show candidate + (i + 1) = candidate + 1 + i by omega,
          show needle + (i + 1) = needle + 1 + i by omega] at isInner

theorem Occurs.isAt {needle n : Nat} {byte : UInt8} (occurs : Occurs memory needle n place)
    (positive : 0 < n) (isByte : memory needle = some byte) : IsAt memory byte.toNat place := by
  have isFirst := occurs 0 positive
  rw [Nat.add_zero, Nat.add_zero, isByte] at isFirst
  exact ⟨byte, isFirst, rfl⟩

theorem memMemLoop_finds {needle n : Nat} {byte : UInt8} (two : 2 ≤ n)
    (isByte : memory needle = some byte) (isNeedle : Readable memory needle (needle + n))
    {p left : Nat} (notNull : p ≠ 0) (readable : Readable memory p (p + left + n - 1)) :
    ∃ found, memMemLoop memory byte.toNat needle n p left = some found ∧
      Finds (Occurs memory needle n) p (p + left) found := by
  induction left using Nat.strongRecOn generalizing p with
  | _ left ih =>
    unfold memMemLoop
    by_cases isEnd : left = 0
    · rw [if_pos isEnd]
      exact ⟨0, rfl, .none (by omega)⟩
    obtain ⟨candidate, searched, finds⟩ := @chrLoop_finds memory byte.toNat p (p + left)
      fun place above below => readable place above (by omega)
    rw [if_neg isEnd, searched, Option.bind_some]
    cases finds with
    | inl nowhere =>
      rw [if_pos nowhere.1]
      refine ⟨0, rfl, Or.inl ⟨rfl, ?_⟩⟩
      intro place above below occurs
      exact nowhere.2 place above below (occurs.isAt (by omega) isByte)
    | inr somewhere =>
      obtain ⟨above, below, isFirst, others⟩ := somewhere
      obtain ⟨byte', isByte', sameByte⟩ := isFirst
      rw [UInt8.toNat_inj.mp sameByte] at isByte'
      have before (place : Nat) (above' : p ≤ place) (below' : place < candidate) :
          ¬Occurs memory needle n place :=
        fun occurs => others place above' below' (occurs.isAt (by omega) isByte)
      obtain ⟨found, compared, isFound⟩ := matchesAt_spec two (isByte'.trans isByte.symm)
        (fun place above' below' => readable place (by omega) (by omega)) isNeedle
      rw [if_neg (by omega), compared, Option.bind_some]
      cases found with
      | true =>
        exact ⟨candidate, rfl, .skip above before (.here below (isFound.mp rfl))⟩
      | false =>
        simp only [Bool.false_eq_true, if_false]
        obtain ⟨found, searched', finds⟩ := ih (left - (candidate - p) - 1) (by omega)
          (Nat.succ_ne_zero candidate)
          fun place above' below' => readable place (by omega) (by omega)
        rw [show candidate + 1 + (left - (candidate - p) - 1) = p + left by omega] at finds
        refine ⟨found, searched', finds.skip (by omega) ?_⟩
        intro place above' below'
        by_cases isHere : place = candidate
        · rw [isHere]
          exact mt isFound.mpr Bool.false_ne_true
        · exact before place above' (by omega)

/-- `MemMem` finds the first place where the whole needle is. -/
theorem memMem_finds {length needle n : Nat} (positive : 0 < n) (notNull : needle ≠ 0)
    (isNull : data = 0 → length = 0) (isText : Readable memory data (data + length))
    (isNeedle : Readable memory needle (needle + n)) :
    ∃ found, memMem memory data length needle n = some found ∧
      Finds (Occurs memory needle n) data (data + length + 1 - n) found := by
  unfold memMem
  rw [if_neg (by omega)]
  by_cases nothing : data = 0 ∨ needle = 0 ∨ length < n
  · rw [if_pos nothing]
    exact ⟨0, rfl, .none (by omega)⟩
  obtain ⟨byte, isByte⟩ := isNeedle needle (Nat.le_refl _) (by omega)
  rw [if_neg nothing, isByte, Option.bind_some]
  by_cases isOne : n = 1
  · obtain ⟨found, searched, finds⟩ := chrLoop_finds byte.toNat isText
    rw [if_pos isOne, searched]
    rw [show data + length + 1 - n = data + length by omega]
    refine ⟨found, rfl, finds.congr ?_⟩
    intro place above below
    constructor
    · rintro ⟨byte', isByte', same⟩ i less
      rw [show i = 0 by omega, Nat.add_zero, Nat.add_zero, isByte', isByte,
        UInt8.toNat_inj.mp same]
    · intro occurs
      exact occurs.isAt positive isByte
  · rw [if_neg isOne]
    obtain ⟨found, searched, finds⟩ := @memMemLoop_finds memory needle n byte (by omega) isByte
      isNeedle data (length - n + 1) (by omega)
      fun place above below => isText place above (by omega)
    rw [show data + (length - n + 1) = data + length + 1 - n by omega] at finds
    exact ⟨found, searched, finds⟩

def memMemI64 (memory : Memory) (data : Nat) (length : Int) (needle : Nat) (needleLength : Int) :
    Option Nat :=
  if needleLength = 0 then some data
  else if data = 0 ∨ needle = 0 ∨ length < needleLength ∨ length < 0 ∨ needleLength < 0 then some 0
  else memMem memory data length.toNat needle needleLength.toNat

/-- The bytes from an address on; nothing is said about any other byte. -/
def Contains (memory : Memory) (address : Nat) (bytes : List UInt8) : Prop :=
  ∀ i < bytes.length, memory (address + i) = bytes[i]?

theorem Contains.readable {memory : Memory} {address : Nat} {bytes : List UInt8}
    (contains : Contains memory address bytes) :
    Readable memory address (address + bytes.length) := by
  intro place above below
  have isByte := contains (place - address) (by omega)
  rw [Nat.add_sub_cancel' above, List.getElem?_eq_getElem (by omega)] at isByte
  exact ⟨_, isByte⟩

def OccursAt (haystack word : List UInt8) (offset : Nat) : Prop :=
  word <+: haystack.drop offset

theorem OccursAt.le {offset : Nat} (occurs : OccursAt haystack word offset) (some' : word ≠ []) :
    offset + word.length ≤ haystack.length := by
  have le := occurs.length_le
  have positive := List.length_pos_of_ne_nil some'
  rw [List.length_drop] at le
  omega

theorem occurs_iff {memory : Memory} {needle : Nat} (isText : Contains memory data haystack)
    (isWord : Contains memory needle word) {offset : Nat}
    (inside : offset + word.length ≤ haystack.length) :
    Occurs memory needle word.length (data + offset) ↔ OccursAt haystack word offset := by
  unfold OccursAt
  rw [List.prefix_iff_getElem?]
  constructor
  · intro occurs i less
    have same := occurs i less
    rw [Nat.add_assoc, isText (offset + i) (by omega), isWord i less] at same
    rw [List.getElem?_drop, same, List.getElem?_eq_getElem less]
  · intro same i less
    have isSame := same i less
    rw [List.getElem?_drop] at isSame
    rw [Nat.add_assoc, isText (offset + i) (by omega), isWord i less, isSame,
      List.getElem?_eq_getElem less]

/-- What a search for a word gives: the least offset, or NULL without one. -/
inductive Located (haystack word : List UInt8) (data : Nat) : Nat → Prop where
  | first (offset : Nat) (occurs : OccursAt haystack word offset)
      (least : ∀ before < offset, ¬OccursAt haystack word before) :
      Located haystack word data (data + offset)
  | nowhere (absent : ∀ offset, ¬OccursAt haystack word offset) : Located haystack word data 0

theorem located_of_finds {memory : Memory} {needle found : Nat}
    (isText : Contains memory data haystack) (isWord : Contains memory needle word)
    (some' : word ≠ []) (finds : Finds (Occurs memory needle word.length) data
      (data + haystack.length + 1 - word.length) found) : Located haystack word data found := by
  have positive := List.length_pos_of_ne_nil some'
  cases finds with
  | inl nowhere =>
    rw [nowhere.1]
    apply Located.nowhere
    intro offset occurs
    have le := occurs.le some'
    apply nowhere.2 (data + offset) (by omega) (by omega)
    exact (occurs_iff isText isWord le).mpr occurs
  | inr somewhere =>
    obtain ⟨above, below, isThere, others⟩ := somewhere
    have isOffset : found = data + (found - data) := (Nat.add_sub_cancel' above).symm
    rw [isOffset] at isThere ⊢
    apply Located.first
    · exact (occurs_iff isText isWord (by omega)).mp isThere
    · intro before less occurs
      have le := occurs.le some'
      apply others (data + before) (by omega) (by omega)
      exact (occurs_iff isText isWord le).mpr occurs

/-- There is one such result, whatever the rest of the memory holds. -/
theorem Located.unique {found found' : Nat} (located : Located haystack word data found)
    (located' : Located haystack word data found') : found = found' := by
  cases located with
  | first offset occurs least =>
    cases located' with
    | first offset' occurs' least' =>
      have notLess : ¬offset < offset' := fun less => least' offset less occurs
      have notMore : ¬offset' < offset := fun less => least offset' less occurs'
      rw [Nat.le_antisymm (Nat.le_of_not_lt notMore) (Nat.le_of_not_lt notLess)]
    | nowhere absent => exact absurd occurs (absent offset)
  | nowhere absent =>
    cases located' with
    | first offset' occurs' least' => exact absurd occurs' (absent offset')
    | nowhere absent' => rfl

open Classical in
/-- A word is in a text somewhere, and then there is a first place, or it is
nowhere. -/
theorem exists_located (haystack word : List UInt8) (data : Nat) :
    ∃ found, Located haystack word data found := by
  by_cases somewhere : ∃ offset, OccursAt haystack word offset
  · exact ⟨data + Nat.find somewhere,
      .first _ (Nat.find_spec somewhere) fun before less => Nat.find_min somewhere less⟩
  · exact ⟨0, .nowhere (not_exists.mp somewhere)⟩

theorem memMemI64_located {memory : Memory} {needle : Nat} (isData : data ≠ 0)
    (isNeedle : needle ≠ 0) (isText : Contains memory data haystack)
    (isWord : Contains memory needle word) :
    ∃ found, memMemI64 memory data haystack.length needle word.length = some found ∧
      Located haystack word data found := by
  unfold memMemI64
  by_cases isEmpty : word = []
  · rw [isEmpty, if_pos (by rfl)]
    have located : Located haystack [] data (data + 0) :=
      .first 0 List.nil_prefix fun before less => absurd less (Nat.not_lt_zero before)
    exact ⟨data, rfl, located⟩
  · have positive := List.length_pos_of_ne_nil isEmpty
    rw [if_neg (by omega)]
    by_cases isShort : haystack.length < word.length
    · rw [if_pos (by omega)]
      refine ⟨0, rfl, .nowhere ?_⟩
      intro offset occurs
      have le := occurs.le isEmpty
      omega
    · rw [if_neg (by omega), Int.toNat_natCast, Int.toNat_natCast]
      obtain ⟨found, searched, finds⟩ := memMem_finds positive isNeedle
        (fun isNull => absurd isNull isData) isText.readable isWord.readable
      exact ⟨found, searched, located_of_finds isText isWord isEmpty finds⟩

/-- `MemMem` returns the first place of the word in the text. The result does
not depend on any byte outside of the two areas, which need not be readable. -/
theorem memMem_first_occurrence :
    (∀ (haystack word : List UInt8) (data needle : Nat), data ≠ 0 → needle ≠ 0 →
      ∃ found, Located haystack word data found ∧ (word = [] → found = data) ∧
        ∀ memory, Contains memory data haystack → Contains memory needle word →
          memMemI64 memory data haystack.length needle word.length = some found) ∧
    ∀ (memory : Memory) (data needle : Nat) (length needleLength : Int),
      (needleLength = 0 → memMemI64 memory data length needle needleLength = some data) ∧
      (needleLength ≠ 0 → data = 0 ∨ needle = 0 ∨ length < 0 ∨ needleLength < 0 →
        memMemI64 memory data length needle needleLength = some 0) := by
  constructor
  · intro haystack word data needle isData isNeedle
    obtain ⟨found, located⟩ := exists_located haystack word data
    refine ⟨found, located, ?_, ?_⟩
    · intro isEmpty
      rw [isEmpty] at located
      apply located.unique
      exact .first 0 List.nil_prefix fun before less => absurd less (Nat.not_lt_zero _)
    · intro memory isText isWord
      obtain ⟨found', searched, located'⟩ := memMemI64_located isData isNeedle isText isWord
      rw [searched, located'.unique located]
  · intro memory data needle length needleLength
    unfold memMemI64
    constructor
    · intro isEmpty
      rw [if_pos isEmpty]
    · intro some' isNull
      rw [if_neg some', if_pos (by omega)]

/-- "aab" is in "aaab" from its second byte on. -/
theorem memMem_first_occurrence_periodic :
    memMemI64 (fun place => (([97, 97, 97, 98, 97, 97, 98] : List UInt8)[place - 10]?))
      10 4 14 3 = some 11 := by
  obtain ⟨found, located, isEmpty, searched⟩ :=
    memMem_first_occurrence.1 [97, 97, 97, 98] [97, 97, 98] 10 14 (by decide) (by decide)
  have result := searched (fun place => (([97, 97, 97, 98, 97, 97, 98] : List UInt8)[place - 10]?))
    (by unfold Contains; decide) (by unfold Contains; decide)
  have isFirst : Located [97, 97, 97, 98] [97, 97, 98] 10 11 :=
    .first 1 (by unfold OccursAt; decide) (by unfold OccursAt; decide)
  rwa [located.unique isFirst] at result

/-! ## Variables -/

theorem setA_self (store : Store) (pointer a : Nat) :
    setA store pointer a pointer = ⟨a, (store pointer).b⟩ := Function.update_self _ _ _

theorem setA_other (store : Store) {pointer other : Nat} (a : Nat) (differs : other ≠ pointer) :
    setA store pointer a other = store other := Function.update_of_ne differs _ _

theorem setB_self (store : Store) (pointer b : Nat) :
    setB store pointer b pointer = ⟨(store pointer).a, b⟩ := Function.update_self _ _ _

theorem setB_other (store : Store) {pointer other : Nat} (b : Nat) (differs : other ≠ pointer) :
    setB store pointer b other = store other := Function.update_of_ne differs _ _

theorem setA_same (store : Store) (pointer : Nat) :
    setA store pointer (store pointer).a = store := Function.update_eq_self pointer store

theorem setA_setA (store : Store) (pointer a a' : Nat) :
    setA (setA store pointer a) pointer a' = setA store pointer a' := by
  unfold setA
  rw [Function.update_self, Function.update_idem]

variable {store : Store}

theorem strsValid_iff {slice : Nat} : strsValid store slice = true ↔ slice ≠ 0 ∧
    ((store slice).a = 0 ∧ (store slice).b = 0 ∨
      (store slice).a ≠ 0 ∧ (store slice).a ≤ (store slice).b) := by
  simp [strsValid]

structure Input (memory : Memory) (store : Store) (slice : Nat) : Prop where
  valid : strsValid store slice = true
  readable : Readable memory (store slice).a (store slice).b

theorem Input.le {slice : Nat} (input : Input memory store slice) :
    (store slice).a ≤ (store slice).b := by
  have valid := strsValid_iff.mp input.valid
  omega

theorem Input.length {slice : Nat} (input : Input memory store slice) :
    strsLen store slice = (store slice).b - (store slice).a := by
  have valid := strsValid_iff.mp input.valid
  unfold strsLen
  split <;> omega

theorem Input.isEmpty {slice : Nat} (input : Input memory store slice) :
    strsEmpty store slice = true ↔ (store slice).a = (store slice).b := by
  have valid := strsValid_iff.mp input.valid
  simp only [strsEmpty, Bool.or_eq_true, beq_iff_eq, decide_eq_true_eq]
  omega

/-- What is found in a slice is in it, and no address that is NULL. -/
theorem Input.found {slice : Nat} (input : Input memory store slice) {found : Nat}
    (finds : Finds holds (store slice).a (store slice).b found) :
    found = 0 ∧ (∀ place, (store slice).a ≤ place → place < (store slice).b → ¬holds place) ∨
      found ≠ 0 ∧ (store slice).a ≤ found ∧ found < (store slice).b ∧ holds found ∧
        ∀ place, (store slice).a ≤ place → place < found → ¬holds place := by
  have valid := strsValid_iff.mp input.valid
  cases finds with
  | inl nowhere => exact Or.inl nowhere
  | inr somewhere => exact Or.inr ⟨by omega, somewhere⟩

/-! ## Searching slices -/

theorem memChr_finds {slice : Nat} (input : Input memory store slice) (character : Int) :
    ∃ found, memChr memory (store slice).a character (strsLen store slice) = some found ∧
      Finds (IsAt memory (character % 256).toNat) (store slice).a (store slice).b found := by
  have le := input.le
  unfold memChr
  rw [input.length]
  by_cases some' : (store slice).a ≠ 0 ∧ (store slice).b - (store slice).a > 0
  · rw [if_pos some', Nat.add_sub_cancel' le]
    exact chrLoop_finds _ input.readable
  · have valid := strsValid_iff.mp input.valid
    rw [if_neg some']
    exact ⟨0, rfl, .none (by omega)⟩

theorem strsFindC_finds {slice : Nat} (input : Input memory store slice) (character : Int) :
    ∃ found, strsFindC memory store slice character = some found ∧
      Finds (IsAt memory (character % 256).toNat) (store slice).a (store slice).b found := by
  unfold strsFindC
  rw [input.valid]
  exact memChr_finds input character

theorem strsFindAny_finds {slice set : Nat} (input : Input memory store slice)
    (isSet : Input memory store set) :
    ∃ found, strsFindAny memory store slice set = some found ∧
      Finds (InSet memory (store set)) (store slice).a (store slice).b found := by
  have le := isSet.le
  unfold strsFindAny
  rw [input.valid, isSet.valid]
  by_cases isEmpty : strsEmpty store set = true
  · rw [isEmpty]
    refine ⟨0, rfl, Or.inl ⟨rfl, ?_⟩⟩
    rintro place _ _ ⟨other, above, below, _⟩
    have same := isSet.isEmpty.mp isEmpty
    omega
  · have notEmpty := mt isSet.isEmpty.mpr isEmpty
    simp only [Bool.not_true, isEmpty, Bool.or_self, Bool.false_eq_true, if_false]
    by_cases isOne : strsLen store set = 1
    · have isLength := isSet.length
      obtain ⟨byte, isByte⟩ := isSet.readable _ (Nat.le_refl _) (by omega)
      obtain ⟨found, searched, finds⟩ := memChr_finds input byte.toNat
      have less := byte.toNat_lt
      rw [show ((byte.toNat : Int) % 256).toNat = byte.toNat by omega] at finds
      rw [if_pos isOne, isByte, Option.bind_some, searched]
      refine ⟨found, rfl, finds.congr ?_⟩
      intro place above below
      constructor
      · rintro ⟨byte', isByte', same⟩
        refine ⟨(store set).a, Nat.le_refl _, by omega, ?_⟩
        rw [isByte, isByte', UInt8.toNat_inj.mp same]
      · rintro ⟨other, above', below', same⟩
        rw [show other = (store set).a by omega, isByte] at same
        exact ⟨byte, same.symm, rfl⟩
    · rw [if_neg isOne]
      exact findAnyLoop_finds isSet.readable input.readable

def SeparatorAt (memory : Memory) (input separator : CStrs) (place : Nat) : Prop :=
  separator.a < separator.b ∧ place + (separator.b - separator.a) ≤ input.b ∧
    Occurs memory separator.a (separator.b - separator.a) place

theorem strsFind_finds {slice separator : Nat} (input : Input memory store slice)
    (isSeparator : Input memory store separator) :
    ∃ found, (if strsLen store separator ≠ 0 then strsFind memory store slice separator
        else some 0) = some found ∧
      Finds (SeparatorAt memory (store slice) (store separator)) (store slice).a (store slice).b
        found := by
  have le := input.le
  have le' := isSeparator.le
  have valid := strsValid_iff.mp input.valid
  have valid' := strsValid_iff.mp isSeparator.valid
  rw [isSeparator.length]
  by_cases some' : (store separator).b - (store separator).a ≠ 0
  · have searches : strsFind memory store slice separator =
        memMem memory (store slice).a ((store slice).b - (store slice).a) (store separator).a
          ((store separator).b - (store separator).a) := by
      unfold strsFind
      rw [input.valid, isSeparator.valid, input.length, isSeparator.length]
      simp only [Bool.not_true, Bool.or_self, Bool.false_eq_true, if_false, some']
    obtain ⟨found, searched, finds⟩ := @memMem_finds memory (store slice).a
      ((store slice).b - (store slice).a) (store separator).a
      ((store separator).b - (store separator).a) (by omega) (by omega) (by omega)
      (by rw [Nat.add_sub_cancel' le]; exact input.readable)
      (by rw [Nat.add_sub_cancel' le']; exact isSeparator.readable)
    rw [if_pos some', searches, searched]
    refine ⟨found, rfl, ?_⟩
    cases finds with
    | inl nowhere =>
      refine Or.inl ⟨nowhere.1, ?_⟩
      rintro place above below ⟨_, fits, occurs⟩
      exact nowhere.2 place above (by omega) occurs
    | inr somewhere =>
      obtain ⟨above, below, occurs, others⟩ := somewhere
      refine Or.inr ⟨above, by omega, ⟨by omega, by omega, occurs⟩, ?_⟩
      rintro place above' below' ⟨_, _, occurs'⟩
      exact others place above' below' occurs'
  · rw [if_neg some']
    refine ⟨0, rfl, Or.inl ⟨rfl, ?_⟩⟩
    rintro place _ _ ⟨less, _⟩
    omega

/-! ## Splitting -/

def content (memory : Memory) (slice : CStrs) : List (Option UInt8) :=
  (List.range' slice.a (slice.b - slice.a)).map memory

theorem content_split {a b c : Nat} (one : a ≤ b) (two : b ≤ c) :
    content memory ⟨a, c⟩ = content memory ⟨a, b⟩ ++ content memory ⟨b, c⟩ := by
  unfold content
  dsimp only
  rw [← List.map_append, show c - a = (b - a) + (c - b) by omega, ← List.range'_append_1,
    Nat.add_sub_cancel' one]

/-- A slice is split at the first place with a separator, which is taken out,
or else at its end. -/
structure Splits (memory : Memory) (input : CStrs) (separates : Nat → Prop) (length : Nat)
    (found : Bool) (head tail : CStrs) : Prop where
  first : head.a = input.a
  last : tail.b = input.b
  inside : head.a ≤ head.b ∧ head.b ≤ tail.a ∧ tail.a ≤ tail.b
  separator : found = true → separates head.b ∧ tail.a = head.b + length
  nothing : found = false → head.b = input.b ∧ tail.a = input.b
  before : ∀ place, input.a ≤ place → place < head.b → ¬separates place
  whole : content memory input =
    content memory head ++ content memory ⟨head.b, tail.a⟩ ++ content memory tail

theorem splitAt_splits {slice head tail position length : Nat} {separates : Nat → Prop}
    (input : Input memory store slice)
    (finds : Finds separates (store slice).a (store slice).b position)
    (fits : ∀ place, separates place → place < (store slice).b →
      place + length ≤ (store slice).b) (differ : head ≠ tail) :
    Splits memory (store slice) separates length
        (splitAt store slice head tail position length).1
        ((splitAt store slice head tail position length).2 head)
        ((splitAt store slice head tail position length).2 tail) ∧
      ∀ other, other ≠ head → other ≠ tail →
        (splitAt store slice head tail position length).2 other = store other := by
  have le := input.le
  have differ' := differ.symm
  cases input.found finds with
  | inl nowhere =>
    obtain ⟨isNull, without⟩ := nowhere
    unfold splitAt
    dsimp only
    rw [if_pos isNull]
    constructor
    · simp only [setB_other, setA_other, setB_self, setA_self, differ, differ', ne_eq,
        not_false_iff]
      refine ⟨rfl, rfl, ⟨le, Nat.le_refl _, Nat.le_refl _⟩, by simp, fun _ => ⟨rfl, rfl⟩,
        without, ?_⟩
      rw [← content_split le (Nat.le_refl _), ← content_split le (Nat.le_refl _)]
    · intro other notHead notTail
      simp only [setB_other, setA_other, notHead, notTail, ne_eq, not_false_iff]
  | inr somewhere =>
    obtain ⟨notNull, above, below, isThere, others⟩ := somewhere
    have room := fits position isThere below
    unfold splitAt
    dsimp only
    rw [if_neg notNull]
    constructor
    · simp only [setB_other, setA_other, setB_self, setA_self, differ, differ', ne_eq,
        not_false_iff]
      refine ⟨rfl, rfl, ⟨above, Nat.le_add_right _ _, room⟩, fun _ => ⟨isThere, rfl⟩, by simp,
        others, ?_⟩
      rw [← content_split above (Nat.le_add_right _ _), ← content_split (by omega) room]
    · intro other notHead notTail
      simp only [setB_other, setA_other, notHead, notTail, ne_eq, not_false_iff]

def SplitsInto (memory : Memory) (store : Store) (slice head tail : Nat)
    (separates : Nat → Prop) (length : Nat) (outcome : Option (Bool × Store)) : Prop :=
  ∃ found after, outcome = some (found, after) ∧
    Splits memory (store slice) separates length found (after head) (after tail) ∧
    ∀ other, other ≠ head → other ≠ tail → after other = store other

section

variable {slice head tail : Nat} (input : Input memory store slice) (isHead : head ≠ 0)
  (isTail : tail ≠ 0) (differ : head ≠ tail)

include input isHead isTail differ

theorem strsSplitC_splits (separator : Int) :
    SplitsInto memory store slice head tail (IsAt memory (separator % 256).toNat) 1
      (strsSplitC memory slice separator head tail store) := by
  obtain ⟨position, searched, finds⟩ := strsFindC_finds input separator
  obtain ⟨splits, others⟩ := @splitAt_splits memory store slice head tail position 1 _ input finds
    (fun _ _ below => below) differ
  refine ⟨_, _, ?_, splits, others⟩
  unfold strsSplitC
  rw [input.valid, searched, if_neg (by simp [isHead, isTail, differ])]
  rfl

theorem strsSplitAny_splits {separators : Nat} (isSet : Input memory store separators) :
    SplitsInto memory store slice head tail (InSet memory (store separators)) 1
      (strsSplitAny memory slice separators head tail store) := by
  obtain ⟨position, searched, finds⟩ := strsFindAny_finds input isSet
  obtain ⟨splits, others⟩ := @splitAt_splits memory store slice head tail position 1 _ input finds
    (fun _ _ below => below) differ
  refine ⟨_, _, ?_, splits, others⟩
  unfold strsSplitAny
  rw [input.valid, isSet.valid, searched, if_neg (by simp [isHead, isTail, differ])]
  rfl

theorem strsSplit_splits {separator : Nat} (isSeparator : Input memory store separator) :
    SplitsInto memory store slice head tail
      (SeparatorAt memory (store slice) (store separator))
      ((store separator).b - (store separator).a)
      (strsSplit memory slice separator head tail store) := by
  obtain ⟨position, searched, finds⟩ := strsFind_finds input isSeparator
  obtain ⟨splits, others⟩ := splitAt_splits input finds (fun _ isThere _ => isThere.2.1) differ
  refine ⟨_, _, ?_, splits, others⟩
  unfold strsSplit
  rw [input.valid, isSeparator.valid, if_neg (by simp [isHead, isTail, differ])]
  dsimp only
  rw [searched, Option.map_some, isSeparator.length]

end

/-! ## Tokens -/

theorem strsHasC_spec {set : Nat} (isSet : Input memory store set) {byte : UInt8}
    (isByte : memory place = some byte) :
    ∃ found, strsHasC memory store set byte.toNat = some found ∧
      (found = true ↔ InSet memory (store set) place) := by
  obtain ⟨found, searched, isFound⟩ := hasLoop_spec byte.toNat isSet.readable
  unfold strsHasC
  rw [isSet.valid]
  exact ⟨found, searched, isFound.trans (inSet_iff isByte).symm⟩

theorem Input.advanced {slice set : Nat} (differ : set ≠ slice) (isSet : Input memory store set)
    (place : Nat) : Input memory (setA store slice place) set := by
  have same := setA_other store place differ
  constructor
  · have valid := isSet.valid
    unfold strsValid at valid ⊢
    rw [same]
    exact valid
  · rw [same]
    exact isSet.readable

/-- The loops stop at the first character that is in the set or is not. -/
theorem advanceWhile_spec (has : Bool) {slice set : Nat} (differ : set ≠ slice)
    (isSet : Input memory store set) (le : (store slice).a ≤ (store slice).b)
    (readable : Readable memory (store slice).a (store slice).b) :
    ∃ stop, advanceWhile has memory slice set store = some (setA store slice stop) ∧
      (store slice).a ≤ stop ∧ stop ≤ (store slice).b ∧
      (∀ place, (store slice).a ≤ place → place < stop →
        (InSet memory (store set) place ↔ has = true)) ∧
      (stop = (store slice).b ∨ ¬(InSet memory (store set) stop ↔ has = true)) := by
  induction steps : (store slice).b - (store slice).a generalizing store with
  | zero =>
    unfold advanceWhile
    rw [if_neg (by omega)]
    exact ⟨(store slice).a, by rw [setA_same], Nat.le_refl _, le, fun _ _ _ => by omega,
      Or.inl (by omega)⟩
  | succ n ih =>
    obtain ⟨byte, isByte⟩ := readable _ (Nat.le_refl _) (by omega)
    obtain ⟨found, searched, isFound⟩ := strsHasC_spec isSet isByte
    unfold advanceWhile
    rw [if_pos (by omega), isByte, Option.bind_some, searched, Option.bind_some]
    by_cases same : found = has
    · have sameSet := setA_other store ((store slice).a + 1) differ
      have moved := setA_self store slice ((store slice).a + 1)
      have next := @ih (setA store slice ((store slice).a + 1)) (isSet.advanced differ _)
        (by rw [moved]; dsimp only; omega) (by rw [moved]; exact readable.tail)
        (by rw [moved]; dsimp only; omega)
      rw [moved, sameSet] at next
      obtain ⟨stop, advanced, above, below, before, atStop⟩ := next
      dsimp only at above below before atStop
      rw [if_pos same, advanced, setA_setA]
      refine ⟨stop, rfl, by omega, below, ?_, atStop⟩
      intro place above' below'
      by_cases isHere : place = (store slice).a
      · rw [isHere, ← isFound, same]
      · exact before place (by omega) below'
    · rw [if_neg same]
      refine ⟨(store slice).a, by rw [setA_same], Nat.le_refl _, le, fun _ _ _ => by omega,
        Or.inr ?_⟩
      rw [← isFound]
      intro equal
      exact same (Bool.eq_iff_iff.mpr equal)

/-- A set that is the slice itself has all of its characters. -/
theorem advanceWhile_own {slice : Nat} (input : Input memory store slice) :
    advanceWhile true memory slice slice store = some (setA store slice (store slice).b) := by
  induction steps : (store slice).b - (store slice).a generalizing store with
  | zero =>
    have le := input.le
    have isEnd : (store slice).b = (store slice).a := by omega
    unfold advanceWhile
    rw [if_neg (by omega), isEnd, setA_same]
  | succ n ih =>
    obtain ⟨byte, isByte⟩ := input.readable _ (Nat.le_refl _) (by omega)
    obtain ⟨found, searched, isFound⟩ := strsHasC_spec input isByte
    have isIn : found = true := isFound.mpr ⟨_, Nat.le_refl _, by omega, rfl⟩
    have valid := strsValid_iff.mp input.valid
    have moved := setA_self store slice ((store slice).a + 1)
    have next : Input memory (setA store slice ((store slice).a + 1)) slice := by
      constructor
      · rw [strsValid_iff, moved]
        dsimp only
        omega
      · rw [moved]
        exact input.readable.tail
    unfold advanceWhile
    rw [if_pos (by omega), isByte, Option.bind_some, searched, Option.bind_some, if_pos isIn,
      ih next (by rw [moved]; dsimp only; omega), setA_setA, moved]

structure Called (memory : Memory) (store : Store) (slice separators result : Nat)
    (found : Bool) (after : Store) : Prop where
  others : ∀ other, other ≠ slice → other ≠ result → after other = store other
  stop : found = false →
    (∀ place, (store slice).a ≤ place → place < (store slice).b →
      InSet memory (store separators) place) ∧
    after slice = ⟨(store slice).b, (store slice).b⟩ ∧
    after result = ⟨(store slice).b, (store slice).b⟩
  token : found = true → ∃ start stop, (store slice).a ≤ start ∧
    (∀ place, (store slice).a ≤ place → place < start → InSet memory (store separators) place) ∧
    start < stop ∧ stop ≤ (store slice).b ∧
    (∀ place, start ≤ place → place < stop → ¬InSet memory (store separators) place) ∧
    (stop = (store slice).b ∨ InSet memory (store separators) stop) ∧
    after slice = ⟨stop, (store slice).b⟩ ∧ after result = ⟨start, stop⟩

section

variable {slice separators result : Nat} (isResult : result ≠ 0) (differ : result ≠ slice)

include isResult differ

theorem strsNextToken_called (input : Input memory store slice)
    (isSet : Input memory store separators) (notOwn : separators ≠ slice)
    (notResult : separators ≠ result) :
    ∃ found after, strsNextToken memory slice separators result store = some (found, after) ∧
      Called memory store slice separators result found after := by
  have valid := strsValid_iff.mp input.valid
  obtain ⟨start, skipped, above, below, before, atStart⟩ :=
    advanceWhile_spec true notOwn isSet input.le input.readable
  have moved := setA_self store slice start
  have guard : (!strsValid store slice || !strsValid store separators || result == 0 ||
      result == slice) = false := by simp [input.valid, isSet.valid, isResult, differ]
  have skips : strsSkipChars memory slice separators store = some (setA store slice start) := by
    unfold strsSkipChars
    rw [input.valid, isSet.valid]
    exact skipped
  unfold strsNextToken
  rw [guard, skips, Option.bind_some]
  simp only [Bool.false_eq_true, if_false]
  have atSlice : Input memory (setA store slice start) slice := by
    constructor
    · rw [strsValid_iff, moved]
      dsimp only
      omega
    · rw [moved]
      exact fun place above' below' => input.readable place (by dsimp only at above'; omega) below'
  by_cases isEmpty : strsEmpty (setA store slice start) slice = true
  · have isEnd := atSlice.isEmpty.mp isEmpty
    rw [moved] at isEnd
    dsimp only at isEnd
    rw [if_pos isEmpty, moved]
    refine ⟨_, _, rfl, ?_, ?_, ?_⟩
    · intro other notSlice notResult
      rw [setB_other _ _ notResult, setA_other _ _ notResult, setA_other _ _ notSlice]
    · intro _
      refine ⟨?_, ?_, ?_⟩
      · intro place above' below'
        exact (before place above' (by omega)).mpr rfl
      · rw [setB_other _ _ differ.symm, setA_other _ _ differ.symm, moved, isEnd]
      · rw [setB_self, setA_self]
    · intro isFalse
      cases isFalse
  · have notEnd : start ≠ (store slice).b := by
      intro isEnd
      apply isEmpty
      rw [atSlice.isEmpty, moved]
      exact isEnd
    have notIn : ¬InSet memory (store separators) start := by
      intro isIn
      exact atStart.resolve_left notEnd (iff_of_true isIn rfl)
    rw [if_neg isEmpty, moved]
    dsimp only
    generalize isMarked : setA (setA store slice start) result start = marked
    have markedSlice : marked slice = ⟨start, (store slice).b⟩ := by
      rw [← isMarked, setA_other _ _ differ.symm, moved]
    have markedSet : marked separators = store separators := by
      rw [← isMarked, setA_other _ _ notResult, setA_other _ _ notOwn]
    have isSet' : Input memory marked separators := by
      rw [← isMarked]
      exact (isSet.advanced notOwn start).advanced notResult start
    obtain ⟨stop, advanced, above', below', within, atStop⟩ :=
      @advanceWhile_spec memory marked false slice separators notOwn isSet'
        (by rw [markedSlice]; exact below)
        (by
          rw [markedSlice]
          exact fun place above' below' => input.readable place (by dsimp only at above'; omega)
            below')
    rw [markedSlice] at above' below' within atStop
    rw [markedSet] at within atStop
    dsimp only at above' below' within atStop
    have more : start < stop := by
      by_contra least
      have isStart : stop = start := by omega
      rw [isStart] at atStop
      exact atStop.resolve_left notEnd (iff_of_false notIn Bool.false_ne_true)
    rw [advanced, Option.map_some, setA_self]
    refine ⟨_, _, rfl, ?_, ?_, ?_⟩
    · intro other notSlice notResult
      rw [setB_other _ _ notResult, setA_other _ _ notSlice, ← isMarked,
        setA_other _ _ notResult, setA_other _ _ notSlice]
    · intro isFalse
      cases isFalse
    · intro _
      refine ⟨start, stop, above, ?_, more, below', ?_, ?_, ?_, ?_⟩
      · intro place above'' below''
        exact (before place above'' below'').mpr rfl
      · intro place above'' below''
        exact mt (within place above'' below'').mp Bool.false_ne_true
      · apply atStop.imp_right
        intro differs
        by_contra notIn'
        exact differs (iff_of_false notIn' Bool.false_ne_true)
      · rw [setB_other _ _ differ.symm, setA_self, markedSlice]
      · rw [setB_self, setA_other _ _ differ, ← isMarked, setA_self]

/-- With the slice itself as the set there is nothing but separators. -/
theorem strsNextToken_own (input : Input memory store slice) :
    ∃ after, strsNextToken memory slice slice result store = some (false, after) ∧
      Called memory store slice slice result false after := by
  have valid := strsValid_iff.mp input.valid
  have moved := setA_self store slice (store slice).b
  have guard : (!strsValid store slice || !strsValid store slice || result == 0 ||
      result == slice) = false := by simp [input.valid, isResult, differ]
  have skips : strsSkipChars memory slice slice store =
      some (setA store slice (store slice).b) := by
    unfold strsSkipChars
    rw [input.valid]
    exact advanceWhile_own input
  have isEmpty : strsEmpty (setA store slice (store slice).b) slice = true := by
    unfold strsEmpty
    rw [moved]
    simp
  unfold strsNextToken
  rw [guard, skips, Option.bind_some]
  simp only [Bool.false_eq_true, if_false]
  rw [if_pos isEmpty, moved]
  refine ⟨_, rfl, ?_, ?_, ?_⟩
  · intro other notSlice notResult
    rw [setB_other _ _ notResult, setA_other _ _ notResult, setA_other _ _ notSlice]
  · intro _
    refine ⟨fun place above below => ⟨place, above, below, rfl⟩, ?_, ?_⟩
    · rw [setB_other _ _ differ.symm, setA_other _ _ differ.symm, moved]
    · rw [setB_self, setA_self]
  · intro isFalse
    cases isFalse

end

def calls (runs : List (Nat × Nat)) (stop n : Nat) : List (Bool × CStrs) :=
  (runs.take n).map (fun run => (true, ⟨run.1, run.2⟩)) ++
    List.replicate (n - runs.length) (false, ⟨stop, stop⟩)

def Kept (store after : Store) (slice result : Nat) : Prop :=
  ∀ other, other ≠ slice → other ≠ result → after other = store other

theorem Called.input {slice separators result : Nat} {found : Bool} {after : Store}
    (called : Called memory store slice separators result found after)
    (input : Input memory store slice) :
    Input memory after slice ∧ (after slice).b = (store slice).b := by
  have valid := strsValid_iff.mp input.valid
  cases found with
  | false =>
    obtain ⟨_, isSlice, _⟩ := called.stop rfl
    refine ⟨⟨?_, ?_⟩, by rw [isSlice]⟩
    · rw [strsValid_iff, isSlice]
      dsimp only
      omega
    · rw [isSlice]
      intro place above below
      dsimp only at above below
      omega
  | true =>
    obtain ⟨start, stop, above, _, less, below, _, _, isSlice, _⟩ := called.token rfl
    refine ⟨⟨?_, ?_⟩, by rw [isSlice]⟩
    · rw [strsValid_iff, isSlice]
      dsimp only
      omega
    · rw [isSlice]
      intro place above' below'
      dsimp only at above'
      exact input.readable place (by omega) below'

theorem Input.kept {slice result set : Nat} {after : Store} (isSet : Input memory store set)
    (kept : Kept store after slice result) (notSlice : set ≠ slice) (notResult : set ≠ result) :
    Input memory after set := by
  have same := kept set notSlice notResult
  constructor
  · have valid := isSet.valid
    unfold strsValid at valid ⊢
    rw [same]
    exact valid
  · rw [same]
    exact isSet.readable

section

variable {slice separators result : Nat} (isResult : result ≠ 0) (differ : result ≠ slice)

include isResult differ

theorem nextTokens_end (n : Nat) (input : Input memory store slice)
    (isSet : separators ≠ slice → Input memory store separators)
    (notResult : separators ≠ result)
    (only : ∀ place, (store slice).a ≤ place → place < (store slice).b →
      InSet memory (store separators) place) :
    ∃ after, nextTokens memory slice separators result n store =
        some (calls [] (store slice).b n, after) ∧ Kept store after slice result := by
  induction n generalizing store with
  | zero => exact ⟨store, rfl, fun _ _ _ => rfl⟩
  | succ n ih =>
    have call : ∃ after, strsNextToken memory slice separators result store =
        some (false, after) ∧ Called memory store slice separators result false after := by
      by_cases own : separators = slice
      · rw [own]
        exact strsNextToken_own isResult differ input
      · obtain ⟨found, after, called, isCalled⟩ :=
          strsNextToken_called isResult differ input (isSet own) own notResult
        cases found with
        | false => exact ⟨after, called, isCalled⟩
        | true =>
          obtain ⟨start, stop, above, _, less, below, free, _⟩ := isCalled.token rfl
          exact absurd (only start above (by omega)) (free start (Nat.le_refl _) less)
    obtain ⟨after, called, isCalled⟩ := call
    obtain ⟨_, isSlice, isToken⟩ := isCalled.stop rfl
    obtain ⟨later, returned, kept⟩ := @ih after (isCalled.input input).1
      (fun own => (isSet own).kept isCalled.others own notResult)
      (by
        rw [isSlice]
        intro place above below
        dsimp only at above below
        omega)
    unfold nextTokens
    rw [called, Option.bind_some, returned, Option.map_some]
    dsimp only
    rw [isToken, isSlice]
    refine ⟨later, ?_, ?_⟩
    · unfold calls
      simp [List.replicate_succ]
    · intro other notSlice notResult
      rw [kept other notSlice notResult, isCalled.others other notSlice notResult]

theorem nextTokens_runs (input : Input memory store slice)
    (isSet : Input memory store separators) (notOwn : separators ≠ slice)
    (notResult : separators ≠ result) :
    ∃ runs, RunsFrom (InSet memory (store separators)) (store slice).b (store slice).a runs ∧
      ∀ n, ∃ after, nextTokens memory slice separators result n store =
        some (calls runs (store slice).b n, after) ∧ Kept store after slice result := by
  induction steps : (store slice).b - (store slice).a using Nat.strongRecOn generalizing store with
  | _ size ih =>
    obtain ⟨found, after, called, isCalled⟩ :=
      strsNextToken_called isResult differ input isSet notOwn notResult
    cases found with
    | false =>
      have only := (isCalled.stop rfl).1
      refine ⟨[], .done only, ?_⟩
      intro n
      exact nextTokens_end isResult differ n input (fun _ => isSet) notResult only
    | true =>
      obtain ⟨start, stop, above, before, less, below, free, atStop, isSlice, isToken⟩ :=
        isCalled.token rfl
      have sameSet := isCalled.others separators notOwn notResult
      obtain ⟨runs, found, later⟩ := ih ((after slice).b - (after slice).a)
        (by rw [isSlice]; dsimp only; omega) (isCalled.input input).1
        (isSet.kept isCalled.others notOwn notResult) rfl
      rw [sameSet, isSlice] at found
      refine ⟨(start, stop) :: runs, .next above before less below free atStop found, ?_⟩
      intro n
      cases n with
      | zero =>
        refine ⟨store, ?_, fun _ _ _ => rfl⟩
        unfold calls
        simp [nextTokens]
      | succ n =>
        obtain ⟨last, returned, kept⟩ := later n
        unfold nextTokens
        rw [called, Option.bind_some, returned, Option.map_some]
        dsimp only
        rw [isToken, isSlice]
        refine ⟨last, ?_, ?_⟩
        · unfold calls
          simp
        · intro other notSlice notResult
          rw [kept other notSlice notResult, isCalled.others other notSlice notResult]

end

/-- Slices are split without loss, and tokens are the runs between separators. -/
structure Partitions (memory : Memory) : Prop where
  splitC : ∀ (store : Store) (slice head tail : Nat) (separator : Int),
    Input memory store slice → head ≠ 0 → tail ≠ 0 → head ≠ tail →
    SplitsInto memory store slice head tail (IsAt memory (separator % 256).toNat) 1
      (strsSplitC memory slice separator head tail store)
  splitAny : ∀ (store : Store) (slice head tail separators : Nat),
    Input memory store slice → Input memory store separators →
    head ≠ 0 → tail ≠ 0 → head ≠ tail →
    SplitsInto memory store slice head tail (InSet memory (store separators)) 1
      (strsSplitAny memory slice separators head tail store)
  split : ∀ (store : Store) (slice head tail separator : Nat),
    Input memory store slice → Input memory store separator →
    head ≠ 0 → tail ≠ 0 → head ≠ tail →
    SplitsInto memory store slice head tail (SeparatorAt memory (store slice) (store separator))
      ((store separator).b - (store separator).a)
      (strsSplit memory slice separator head tail store)
  tokens : ∀ (store : Store) (slice separators result : Nat),
    Input memory store slice → Input memory store separators →
    result ≠ 0 → result ≠ slice → separators ≠ result →
    ∃ runs : List (Nat × Nat),
      (∀ start stop, (start, stop) ∈ runs ↔ IsRun (InSet memory (store separators))
        (store slice).a (store slice).b start stop) ∧
      runs.Pairwise (fun one two => one.2 ≤ two.1) ∧
      ∀ n, ∃ after, nextTokens memory slice separators result n store =
        some (calls runs (store slice).b n, after) ∧ Kept store after slice result
  sameParts : ∀ (store : Store) (slice part separators : Nat) (separator : Int),
    strsSplitC memory slice separator part part store = some (false, store) ∧
    strsSplitAny memory slice separators part part store = some (false, store) ∧
    strsSplit memory slice separators part part store = some (false, store)
  sameToken : ∀ (store : Store) (slice separators : Nat),
    strsNextToken memory slice separators slice store = some (false, store)

theorem strs_partitions (memory : Memory) : Partitions memory where
  splitC := fun _ _ _ _ separator input isHead isTail differ =>
    strsSplitC_splits input isHead isTail differ separator
  splitAny := fun _ _ _ _ _ input isSet isHead isTail differ =>
    strsSplitAny_splits input isHead isTail differ isSet
  split := fun _ _ _ _ _ input isSeparator isHead isTail differ =>
    strsSplit_splits input isHead isTail differ isSeparator
  tokens := by
    intro store slice separators result input isSet isResult differ notResult
    by_cases own : separators = slice
    · have only (place : Nat) (above : (store slice).a ≤ place) (below : place < (store slice).b) :
          InSet memory (store separators) place := by
        rw [own]
        exact ⟨place, above, below, rfl⟩
      have found : RunsFrom (InSet memory (store separators)) (store slice).b (store slice).a [] :=
        .done only
      refine ⟨[], ?_, found.ordered, ?_⟩
      · intro start stop
        rw [found.mem_iff (Nat.le_refl _) (Or.inl rfl)]
        exact ⟨And.left, fun isRun => ⟨isRun, isRun.above⟩⟩
      · intro n
        exact nextTokens_end isResult differ n input (fun _ => isSet) notResult only
    · obtain ⟨runs, found, returned⟩ :=
        nextTokens_runs isResult differ input isSet own notResult
      refine ⟨runs, ?_, found.ordered, returned⟩
      intro start stop
      rw [found.mem_iff (Nat.le_refl _) (Or.inl rfl)]
      exact ⟨And.left, fun isRun => ⟨isRun, isRun.above⟩⟩
  sameParts := by
    intro store slice part separators separator
    refine ⟨?_, ?_, ?_⟩
    · unfold strsSplitC
      rw [if_pos (by simp)]
    · unfold strsSplitAny
      rw [if_pos (by simp)]
    · unfold strsSplit
      rw [if_pos (by simp)]
  sameToken := by
    intro store slice separators
    unfold strsNextToken
    rw [if_pos (by simp)]

end

def commaMemory : Memory := fun place =>
  if place = 32 then some 0x2C
  else if place = 64 then some 0x61
  else if place = 65 then some 0x2C
  else if place = 66 then some 0x62
  else none

def commaStore : Store := fun pointer =>
  if pointer = 1 then ⟨64, 67⟩ else if pointer = 2 then ⟨32, 33⟩ else ⟨0, 0⟩

/-- The first run is `a`. With the slice as the result variable there is no
token, and with the separators as the result variable it is `a,b`. -/
theorem same_variable_no_run :
    IsRun (InSet commaMemory (commaStore 2)) (commaStore 1).a (commaStore 1).b 64 65 ∧
      nextTokens commaMemory 1 2 1 1 commaStore = some ([(false, ⟨64, 67⟩)], commaStore) ∧
      (nextTokens commaMemory 1 2 2 1 commaStore).map Prod.fst = some [(true, ⟨64, 67⟩)] := by
  refine ⟨⟨by decide, by decide, by decide, ?_, Or.inl rfl, Or.inr ⟨32, by decide, by decide, rfl⟩⟩,
    rfl, ?_⟩
  · rintro place above below ⟨other, above', below', same⟩
    have isFirst : place = 64 := by omega
    have isComma : other = 32 := by
      simp only [commaStore] at above' below'
      simp at above' below'
      omega
    rw [isFirst, isComma] at same
    exact absurd same (by decide)
  · decide +kernel

end Aholyc.Strs
