import Mathlib.Algebra.Order.BigOperators.GroupWithZero.List
import Mathlib.Algebra.Order.Ring.Int
import Mathlib.Tactic.IntervalCases
import Aholyc.Parse.Classes

/-!
# The layout of a class

The places that `parse_class` gives to the members of a body without a `$$` assignment,
against those of exact arithmetic. They are the same as long as every member stores
something and the end of the class is an `int`.
-/

namespace Aholyc.Parse

open Aholyc.Lib

def exactSize (classes : Classes) (ty : MemberType) : Int :=
  (typeSize classes ty.base).toInt * (ty.dims.map BitVec.toInt).prod

/-- Arrays of a type that is complete, not empty and not the class itself. -/
structure Stores (classes : Classes) (this : String) (ty : MemberType) : Prop where
  sized : 0 < (typeSize classes ty.base).toInt
  apart : ty.base ≠ .cls this
  lengths : ∀ len ∈ ty.dims, 0 ≤ len.toInt

def roundTo (n : Int) : Option Align → Int
  | none => n
  | some a => roundUp n a.log

/-! ## Rounding an offset -/

section

variable {x : BitVec 32} {a : Align}

theorem Align.bytes_le (a : Align) : (2 : Int) ^ a.log ≤ 2 ^ 20 :=
  pow_le_pow_right₀ (by decide) a.small

theorem Align.bytes_pos (a : Align) : (0 : Int) < 2 ^ a.log := by positivity

theorem Align.bytes_toInt (a : Align) : a.bytes.toInt = 2 ^ a.log := by
  obtain ⟨log, small⟩ := a
  interval_cases log <;> rfl

theorem bytes_sub_one (a : Align) : (a.bytes - 1).toInt = 2 ^ a.log - 1 := by
  have most := a.bytes_le
  have pos := a.bytes_pos
  rw [BitVec.toInt_sub, a.bytes_toInt]
  apply bmod_of_inRange (by decide)
  constructor
  · show -(2 : Int) ^ 31 ≤ 2 ^ a.log - 1
    omega
  · show 2 ^ a.log - 1 < (2 : Int) ^ 31
    omega

theorem alignUp_eq (fits : x.toInt + 2 ^ a.log - 1 < 2 ^ 31) :
    (alignUp x a).toInt = roundUp x.toInt a.log := by
  have pos := a.bytes_pos
  have lower := (toInt_inRange x).1
  have sum : (x + a.bytes - 1).toInt = x.toInt + 2 ^ a.log - 1 := by
    have split : x + a.bytes - 1 = x + (a.bytes - 1) := by
      rw [BitVec.sub_eq_add_neg, BitVec.sub_eq_add_neg, BitVec.add_assoc]
    rw [split, toInt_add_of_inRange (by decide), bytes_sub_one, Int.add_sub_assoc]
    rw [bytes_sub_one]
    constructor
    · omega
    · show _ < (2 : Int) ^ 31
      omega
  have small : a.log < 32 := lt_of_le_of_lt a.small (by decide)
  unfold alignUp Align.bytes at *
  rw [toInt_mask _ small, sum]
  rfl

/-- An offset so close to the end of the `int`s is rounded to a negative one. -/
theorem alignUp_wraps (past : 2 ^ 31 ≤ x.toInt + 2 ^ a.log - 1) : (alignUp x a).toInt < 0 := by
  have most := a.bytes_le
  have upper := (toInt_inRange x).2
  have pos := a.bytes_pos
  have sum : (x + a.bytes - 1).toInt = x.toInt + 2 ^ a.log - 1 - 2 ^ 32 := by
    have split : x + a.bytes - 1 = x + (a.bytes - 1) := by
      rw [BitVec.sub_eq_add_neg, BitVec.sub_eq_add_neg, BitVec.add_assoc]
    rw [split, BitVec.toInt_add, bytes_sub_one]
    have shift : x.toInt + (2 ^ a.log - 1) =
        x.toInt + 2 ^ a.log - 1 - 2 ^ 32 + ((2 ^ 32 : Nat) : Int) * 1 := by
      push_cast
      omega
    rw [shift, Int.add_mul_bmod_self_left]
    apply bmod_of_inRange (by decide)
    constructor
    · show -(2 : Int) ^ 31 ≤ _
      omega
    · show _ < (2 : Int) ^ 31
      omega
  have small : a.log < 32 := lt_of_le_of_lt a.small (by decide)
  have down := Int.ediv_mul_le (x.toInt + 2 ^ a.log - 1 - 2 ^ 32) pos.ne'
  unfold alignUp Align.bytes at *
  rw [toInt_mask _ small, sum]
  have upper' : x.toInt < 2 ^ 31 := upper
  omega

end

section

variable {x : BitVec 32}

theorem position_exact (ask : Option Align) (fits : roundTo x.toInt ask < 2 ^ 31) :
    (position x ask).toInt = roundTo x.toInt ask := by
  cases ask with
  | none => rfl
  | some a =>
    apply alignUp_eq
    have below := le_roundUp x.toInt a.log
    obtain ⟨many, isMany⟩ := roundUp_dvd x.toInt a.log
    have whole : (2 : Int) ^ 31 = 2 ^ a.log * 2 ^ (31 - a.log) := by
      rw [← pow_add]
      congr 1
      have small := a.small
      omega
    have fits' : roundUp x.toInt a.log < 2 ^ 31 := fits
    rw [isMany, whole] at fits'
    have less : many < 2 ^ (31 - a.log) := lt_of_mul_lt_mul_left fits' a.bytes_pos.le
    have last : 2 ^ a.log * (many + 1) ≤ 2 ^ a.log * 2 ^ (31 - a.log) :=
      mul_le_mul_of_nonneg_left less a.bytes_pos.le
    rw [← whole, mul_add, mul_one, ← isMany] at last
    omega

/-- A place that is not in front of the start is that of exact arithmetic. -/
theorem position_behind {ask : Option Align} (behind : x.toInt ≤ (position x ask).toInt) :
    (position x ask).toInt = roundTo x.toInt ask := by
  cases ask with
  | none => rfl
  | some a =>
    by_cases past : 2 ^ 31 ≤ x.toInt + 2 ^ a.log - 1
    · have negative := alignUp_wraps past
      have most := a.bytes_le
      have behind' : x.toInt ≤ (alignUp x a).toInt := behind
      omega
    · exact alignUp_eq (not_le.mp past)

end

theorem le_roundTo (n : Int) (ask : Option Align) : n ≤ roundTo n ask := by
  cases ask with
  | none => exact le_refl n
  | some a => exact le_roundUp n a.log

theorem setWidth_int (len : Word) : len.setWidth 32 = BitVec.ofInt 32 len.toInt := by
  apply BitVec.eq_of_toInt_eq
  rw [BitVec.toInt_setWidth, BitVec.toInt_ofInt, BitVec.toInt_eq_toNat_bmod]
  symm
  apply Int.bmod_bmod_of_dvd
  decide

theorem memberSize_eq (classes : Classes) (ty : MemberType) :
    memberSize classes ty = BitVec.ofInt 32 (exactSize classes ty) := by
  obtain ⟨base, dims⟩ := ty
  unfold memberSize exactSize
  dsimp only
  have grow : ∀ (start : BitVec 32), dims.foldl (fun size len => size * len.setWidth 32) start =
      BitVec.ofInt 32 (start.toInt * (dims.map BitVec.toInt).prod) := by
    induction dims with
    | nil =>
      intro start
      simp
    | cons len dims ih =>
      intro start
      rw [List.foldl_cons, ih, List.map_cons, List.prod_cons, ← Int.mul_assoc, BitVec.ofInt_mul,
        BitVec.ofInt_mul (start.toInt * len.toInt), BitVec.ofInt_toInt, BitVec.ofInt_mul,
        BitVec.ofInt_toInt, setWidth_int]
  exact grow _

variable {this : String}

theorem exactSize_nonneg {classes : Classes} {ty : MemberType} (stores : Stores classes this ty) :
    0 ≤ exactSize classes ty := by
  apply mul_nonneg stores.sized.le
  apply List.prod_nonneg
  intro n member
  obtain ⟨len, isLen, rfl⟩ := List.mem_map.mp member
  exact stores.lengths len isLen

/-! ## The members of a body -/

section

variable (classes : Classes) (alignHints isUnion : Bool) (alignAll : Option HintAlign)

def ask (field : Field) : Option Align :=
  requested classes field (policy alignHints alignAll field)

def Member.stop (m : Member) : Int := m.offset.toInt + exactSize classes m.ty

/-- The end of the member that reaches furthest, or of the parent. -/
def furthest (start : Int) (members : List Member) : Int :=
  members.foldl (fun far m => max far (m.stop classes)) start

def exactEnd (start : Int) (fields : List Field) : Int :=
  fields.foldl (fun off field =>
    if isUnion then max off (exactSize classes field.ty)
    else roundTo off (ask classes alignHints alignAll field) + exactSize classes field.ty) start

def layoutFields (l : Layout) (fields : List Field) : Layout :=
  fields.foldl (fun l field => layoutField classes alignHints isUnion alignAll field l) l

/-- The member has the name and the type of the declarator, and the alignment. -/
def Realises (field : Field) (m : Member) : Prop :=
  m.name = field.name ∧ m.ty = field.ty ∧
    ∀ a, ask classes alignHints alignAll field = some a → 2 ^ a.log ∣ m.offset.toInt

/-- Members of a class stand behind each other from the end of the parent on; those of a union
all stand at the base. -/
structure MembersApart (start : Int) (fields : List Field) (members : List Member) : Prop where
  order : isUnion = false → members.Pairwise fun a b => a.stop classes ≤ b.offset.toInt
  first : isUnion = false → ∀ field ∈ fields.head?, ∀ m ∈ members.head?,
    m.offset.toInt = roundTo start (ask classes alignHints alignAll field)
  base : isUnion = true → ∀ m ∈ members, m.offset = 0

/-- The layout in the middle of a body, when it is that of exact arithmetic. -/
structure Exact (start : Int) (fields : List Field) (l : Layout) : Prop where
  unionBase : l.unionBase = 0
  neg : l.neg = 0
  off : l.off.toInt = exactEnd classes alignHints isUnion alignAll start fields
  realises : List.Forall₂ (Realises classes alignHints alignAll) fields l.members
  apart : MembersApart classes alignHints isUnion alignAll start fields l.members
  inside : ∀ m ∈ l.members, m.stop classes ≤ l.off.toInt
  last : isUnion = false → ∀ m ∈ l.members.getLast?, m.stop classes = l.off.toInt
  far : furthest classes start l.members = l.off.toInt

variable {classes alignHints isUnion alignAll}

theorem exactEnd_concat (start : Int) (fields : List Field) (field : Field) :
    exactEnd classes alignHints isUnion alignAll start (fields ++ [field]) =
      if isUnion then
        max (exactEnd classes alignHints isUnion alignAll start fields)
          (exactSize classes field.ty)
      else
        roundTo (exactEnd classes alignHints isUnion alignAll start fields)
          (ask classes alignHints alignAll field) + exactSize classes field.ty := by
  unfold exactEnd
  rw [List.foldl_append]
  rfl

theorem furthest_concat (start : Int) (members : List Member) (m : Member) :
    furthest classes start (members ++ [m]) = max (furthest classes start members) (m.stop classes) := by
  unfold furthest
  rw [List.foldl_append]
  rfl

variable {start : Int} {fields : List Field} {field : Field} {l : Layout}

theorem le_exactEnd (stores : Stores classes this field.ty) :
    exactEnd classes alignHints isUnion alignAll start fields ≤
      exactEnd classes alignHints isUnion alignAll start (fields ++ [field]) := by
  have size := exactSize_nonneg stores
  rw [exactEnd_concat]
  split
  · exact le_max_left _ _
  · have up := le_roundTo (exactEnd classes alignHints isUnion alignAll start fields)
      (ask classes alignHints alignAll field)
    omega

theorem layoutFields_concat (l : Layout) (fields : List Field) (field : Field) :
    layoutFields classes alignHints isUnion alignAll l (fields ++ [field]) =
      layoutField classes alignHints isUnion alignAll field
        (layoutFields classes alignHints isUnion alignAll l fields) := by
  unfold layoutFields
  rw [List.foldl_append]
  rfl

def place (classes : Classes) (alignHints isUnion : Bool) (alignAll : Option HintAlign)
    (l : Layout) (field : Field) : BitVec 32 :=
  position (if isUnion then l.unionBase else l.off) (ask classes alignHints alignAll field)

theorem layoutField_members (classes : Classes) (alignHints isUnion : Bool)
    (alignAll : Option HintAlign) (l : Layout) (field : Field) :
    (layoutField classes alignHints isUnion alignAll field l).members =
      l.members ++ [⟨field.name, field.ty, place classes alignHints isUnion alignAll l field⟩] := rfl

theorem stop_eq {pos : BitVec 32} (stores : Stores classes this field.ty)
    (fits : pos.toInt + exactSize classes field.ty < 2 ^ 31) :
    (pos + memberSize classes field.ty).toInt = pos.toInt + exactSize classes field.ty := by
  have size := exactSize_nonneg stores
  have lower := (toInt_inRange pos).1
  have sum : pos + memberSize classes field.ty =
      BitVec.ofInt 32 (pos.toInt + exactSize classes field.ty) := by
    rw [BitVec.ofInt_add, BitVec.ofInt_toInt, memberSize_eq]
  rw [sum]
  apply toInt_ofInt_of_inRange (by decide)
  constructor
  · omega
  · exact fits

theorem realises_place
    (exact_place : (place classes alignHints isUnion alignAll l field).toInt =
      roundTo start (ask classes alignHints alignAll field)) :
    Realises classes alignHints alignAll field
      ⟨field.name, field.ty, place classes alignHints isUnion alignAll l field⟩ := by
  refine ⟨rfl, rfl, ?_⟩
  intro a asked
  rw [asked] at exact_place
  show _ ∣ (place classes alignHints isUnion alignAll l field).toInt
  rw [exact_place]
  exact roundUp_dvd _ _

theorem position_zero (wish : Option Align) : position 0 wish = 0 := by
  cases wish with
  | none => rfl
  | some a =>
    have most := a.bytes_le
    have pos := a.bytes_pos
    apply BitVec.eq_of_toInt_eq
    have zero : (0 : BitVec 32).toInt = 0 := by decide
    have rounded : (alignUp 0 a).toInt = roundUp 0 a.log := by
      rw [alignUp_eq]
      · rw [zero]
      · rw [zero]
        omega
    show (alignUp 0 a).toInt = _
    rw [rounded, zero]
    unfold roundUp
    rw [Int.zero_add, Int.ediv_eq_zero_of_lt (by omega) (by omega), Int.zero_mul]

theorem Exact.class_step (isExact : Exact classes alignHints false alignAll start fields l)
    (stores : Stores classes this field.ty) (begins : fields = [] → l.off.toInt = start)
    (fits : exactEnd classes alignHints false alignAll start (fields ++ [field]) < 2 ^ 31) :
    Exact classes alignHints false alignAll start (fields ++ [field])
      (layoutField classes alignHints false alignAll field l) := by
  have size := exactSize_nonneg stores
  rw [exactEnd_concat, if_neg (by decide), ← isExact.off] at fits
  have placed : (place classes alignHints false alignAll l field).toInt =
      roundTo l.off.toInt (ask classes alignHints alignAll field) := by
    apply position_exact
    show roundTo l.off.toInt (ask classes alignHints alignAll field) < 2 ^ 31
    omega
  have up := le_roundTo l.off.toInt (ask classes alignHints alignAll field)
  have stop : (layoutField classes alignHints false alignAll field l).off.toInt =
      (place classes alignHints false alignAll l field).toInt + exactSize classes field.ty := by
    have placeFits : (place classes alignHints false alignAll l field).toInt +
        exactSize classes field.ty < 2 ^ 31 := by omega
    exact stop_eq stores placeFits
  have members := layoutField_members classes alignHints false alignAll l field
  refine ⟨isExact.unionBase, isExact.neg, ?_, ?_, ⟨?_, ?_, ?_⟩, ?_, ?_, ?_⟩
  · rw [stop, placed, exactEnd_concat, if_neg (by decide), isExact.off]
  · rw [members]
    exact List.rel_append isExact.realises (.cons (realises_place placed) .nil)
  · intro isClass
    rw [members, List.pairwise_append]
    refine ⟨isExact.apart.order isClass, List.pairwise_singleton _ _, ?_⟩
    intro m member next isNext
    rw [List.mem_singleton.mp isNext]
    have before := isExact.inside m member
    show m.stop classes ≤ (place classes alignHints false alignAll l field).toInt
    omega
  · intro isClass asked isAsked m isFirst
    rw [members] at isFirst
    cases fields with
    | nil =>
      rw [List.forall₂_nil_left_iff.mp isExact.realises] at isFirst
      injection isAsked with sameField
      injection isFirst with sameMember
      rw [← sameMember, ← sameField, ← begins rfl]
      exact placed
    | cons other fields =>
      cases isMembers : l.members with
      | nil =>
        have realises := isExact.realises
        rw [isMembers] at realises
        cases realises
      | cons head members =>
        rw [isMembers] at isFirst
        apply isExact.apart.first isClass asked isAsked
        rw [isMembers]
        exact isFirst
  · intro isUnion
    cases isUnion
  · intro m member
    rw [members] at member
    rw [stop]
    rcases List.mem_append.mp member with before | new
    · have inside := isExact.inside m before
      omega
    · rw [List.mem_singleton.mp new]
      exact le_refl _
  · intro _ m isLast
    rw [members, List.getLast?_concat] at isLast
    injection isLast with same
    rw [stop, ← same]
    rfl
  · rw [members, furthest_concat, isExact.far, stop]
    apply max_eq_right
    show _ ≤ (place classes alignHints false alignAll l field).toInt + exactSize classes field.ty
    omega

theorem Exact.union_step (isExact : Exact classes alignHints true alignAll start fields l)
    (stores : Stores classes this field.ty)
    (fits : exactEnd classes alignHints true alignAll start (fields ++ [field]) < 2 ^ 31) :
    Exact classes alignHints true alignAll start (fields ++ [field])
      (layoutField classes alignHints true alignAll field l) := by
  rw [exactEnd_concat, if_pos rfl, ← isExact.off] at fits
  have placed : place classes alignHints true alignAll l field = 0 := by
    show position l.unionBase _ = 0
    rw [isExact.unionBase]
    exact position_zero _
  have zero : (0 : BitVec 32).toInt = 0 := by decide
  have stop : (place classes alignHints true alignAll l field + memberSize classes field.ty).toInt =
      exactSize classes field.ty := by
    have small := lt_of_le_of_lt (le_max_right _ _) fits
    rw [stop_eq stores, placed, zero, Int.zero_add]
    rw [placed, zero, Int.zero_add]
    exact small
  have off : (layoutField classes alignHints true alignAll field l).off.toInt =
      max l.off.toInt (exactSize classes field.ty) := by
    show (if (place classes alignHints true alignAll l field + memberSize classes field.ty).toInt >
      l.off.toInt then place classes alignHints true alignAll l field + memberSize classes field.ty
      else l.off).toInt = _
    split
    · next more =>
      rw [stop] at more ⊢
      exact (max_eq_right more.le).symm
    · next less =>
      rw [stop] at less
      exact (max_eq_left (not_lt.mp less)).symm
  have last : (Member.mk field.name field.ty
      (place classes alignHints true alignAll l field)).stop classes =
        exactSize classes field.ty := by
    show (place classes alignHints true alignAll l field).toInt + exactSize classes field.ty = _
    rw [placed, zero, Int.zero_add]
  have members := layoutField_members classes alignHints true alignAll l field
  refine ⟨isExact.unionBase, isExact.neg, ?_, ?_, ⟨?_, ?_, ?_⟩, ?_, ?_, ?_⟩
  · rw [off, exactEnd_concat, if_pos rfl, isExact.off]
  · rw [members]
    apply List.rel_append isExact.realises
    refine .cons ⟨rfl, rfl, ?_⟩ .nil
    intro a _
    show _ ∣ (place classes alignHints true alignAll l field).toInt
    rw [placed, zero]
    exact Int.dvd_zero _
  · intro isClass
    cases isClass
  · intro isClass
    cases isClass
  · intro isUnion m member
    rw [members] at member
    rcases List.mem_append.mp member with before | new
    · exact isExact.apart.base isUnion m before
    · rw [List.mem_singleton.mp new]
      exact placed
  · intro m member
    rw [members] at member
    rw [off]
    rcases List.mem_append.mp member with before | new
    · exact (isExact.inside m before).trans (le_max_left _ _)
    · rw [List.mem_singleton.mp new, last]
      exact le_max_right _ _
  · intro isClass
    cases isClass
  · rw [members, furthest_concat, isExact.far, off, last]

/-- The layout is exact as long as the members store something and their end fits. -/
theorem layoutFields_exact {start : Layout} (unionBase : start.unionBase = 0) (neg : start.neg = 0)
    (noMembers : start.members = []) (fields : List Field)
    (stores : ∀ field ∈ fields, Stores classes this field.ty)
    (fits : exactEnd classes alignHints isUnion alignAll start.off.toInt fields < 2 ^ 31) :
    Exact classes alignHints isUnion alignAll start.off.toInt fields
      (layoutFields classes alignHints isUnion alignAll start fields) := by
  induction fields using List.reverseRecOn with
  | nil =>
    refine ⟨unionBase, neg, rfl, ?_, ⟨?_, ?_, ?_⟩, ?_, ?_, ?_⟩
    · show List.Forall₂ _ [] start.members
      rw [noMembers]
      exact .nil
    · intro _
      show List.Pairwise _ start.members
      rw [noMembers]
      exact List.Pairwise.nil
    · intro _ field isField
      cases isField
    · intro _ m member
      rw [show (layoutFields classes alignHints isUnion alignAll start []).members = [] from noMembers]
        at member
      cases member
    · intro m member
      rw [show (layoutFields classes alignHints isUnion alignAll start []).members = [] from noMembers]
        at member
      cases member
    · intro _ m isLast
      rw [show (layoutFields classes alignHints isUnion alignAll start []).members = [] from noMembers]
        at isLast
      cases isLast
    · show furthest classes start.off.toInt start.members = start.off.toInt
      rw [noMembers]
      rfl
  | append_singleton fields field ih =>
    have stores' : ∀ field ∈ fields, Stores classes this field.ty := fun field member =>
      stores field (List.mem_append_left _ member)
    have isStored := stores field (List.mem_append_right _ (List.mem_singleton_self field))
    have isExact := ih stores' (lt_of_le_of_lt (le_exactEnd isStored) fits)
    rw [layoutFields_concat]
    cases isUnion with
    | true => exact isExact.union_step isStored fits
    | false =>
      apply isExact.class_step isStored _ fits
      intro none
      rw [none]
      rfl

theorem MembersApart.front {members : List Member} {m : Member}
    (apart : MembersApart classes alignHints isUnion alignAll start (fields ++ [field])
      (members ++ [m])) :
    MembersApart classes alignHints isUnion alignAll start fields members where
  order isClass := (List.pairwise_append.mp (apart.order isClass)).1
  first isClass asked isAsked other isFirst := by
    apply apart.first isClass asked _ other _
    · rw [List.head?_append, isAsked]
      rfl
    · rw [List.head?_append, isFirst]
      rfl
  base isUnion other member := apart.base isUnion other (List.mem_append_left _ member)

/-- A place behind the other members of a class is that of exact arithmetic. -/
theorem Exact.place_eq (isExact : Exact classes alignHints false alignAll start fields l)
    (begins : fields = [] → l.off.toInt = start)
    (apart : MembersApart classes alignHints false alignAll start (fields ++ [field])
      (layoutField classes alignHints false alignAll field l).members) :
    (place classes alignHints false alignAll l field).toInt =
      roundTo l.off.toInt (ask classes alignHints alignAll field) := by
  have members := layoutField_members classes alignHints false alignAll l field
  cases fields with
  | nil =>
    rw [members, List.forall₂_nil_left_iff.mp isExact.realises] at apart
    rw [begins rfl]
    exact apart.first rfl field rfl _ rfl
  | cons other fields =>
    have some_member : l.members ≠ [] := by
      intro none
      have realises := isExact.realises
      rw [none] at realises
      cases realises
    have last := isExact.last rfl _ (List.getLast?_eq_some_getLast some_member)
    rw [members] at apart
    have behind := (List.pairwise_append.mp (apart.order rfl)).2.2 _
      (List.getLast_mem some_member) _ (List.mem_singleton_self _)
    rw [last] at behind
    exact position_behind behind

/-- Members that stand apart and end at an `int` have the exact end. -/
theorem exactEnd_fits {start : Layout} (unionBase : start.unionBase = 0) (neg : start.neg = 0)
    (noMembers : start.members = []) (fields : List Field)
    (stores : ∀ field ∈ fields, Stores classes this field.ty)
    (apart : MembersApart classes alignHints isUnion alignAll start.off.toInt fields
      (layoutFields classes alignHints isUnion alignAll start fields).members)
    (ends : furthest classes start.off.toInt
      (layoutFields classes alignHints isUnion alignAll start fields).members < 2 ^ 31) :
    exactEnd classes alignHints isUnion alignAll start.off.toInt fields < 2 ^ 31 := by
  induction fields using List.reverseRecOn with
  | nil => exact (toInt_inRange start.off).2
  | append_singleton fields field ih =>
    have stores' : ∀ field ∈ fields, Stores classes this field.ty := fun field member =>
      stores field (List.mem_append_left _ member)
    rw [layoutFields_concat] at apart ends
    have ends' := ends
    rw [layoutField_members, furthest_concat] at ends'
    obtain ⟨front_ends, last_ends⟩ := max_lt_iff.mp ends'
    have apart' := apart
    rw [layoutField_members] at apart'
    have isExact := layoutFields_exact unionBase neg noMembers fields stores'
      (ih stores' apart'.front front_ends)
    rw [exactEnd_concat, ← isExact.off]
    cases isUnion with
    | true =>
      rw [if_pos rfl]
      have atBase := apart'.base rfl _ (List.mem_append_right _ (List.mem_singleton_self _))
      unfold Member.stop at last_ends
      rw [atBase] at last_ends
      apply max_lt (toInt_inRange _).2
      have zero : (0 : BitVec 32).toInt = 0 := by decide
      rw [zero, Int.zero_add] at last_ends
      exact last_ends
    | false =>
      rw [if_neg (by decide)]
      have placed := isExact.place_eq (by
        intro none
        rw [none]
        rfl) apart
      rw [← placed]
      exact last_ends

end

/-! ## The whole class -/

def widest (classes : Classes) (alignHints : Bool) (alignAll : Option HintAlign) (parent : Align)
    (fields : List Field) : Align :=
  fields.foldl (fun wide field =>
    ((ask classes alignHints alignAll field).map wide.larger).getD wide) parent

/-- An `@align` hint stands in front of the class or of a member. -/
def isAligned (alignHints : Bool) (alignAll : Option HintAlign) (fields : List Field) : Bool :=
  alignAll.isSome || fields.any fun field => alignHints && field.alignHint.isSome

/-- The size of a class with this end: rounded up in an aligned class. -/
def sizeFor (classes : Classes) (alignHints : Bool) (alignAll : Option HintAlign) (parent : Align)
    (fields : List Field) (last : Int) : Int :=
  if isAligned alignHints alignAll fields then
    roundTo last (some (widest classes alignHints alignAll parent fields))
  else last

section

variable {classes : Classes} {alignHints isUnion : Bool} {alignAll : Option HintAlign}

theorem layoutFields_align (l : Layout) (fields : List Field) :
    (layoutFields classes alignHints isUnion alignAll l fields).layoutAlign =
      widest classes alignHints alignAll l.layoutAlign fields := by
  induction fields generalizing l with
  | nil => rfl
  | cons field fields ih => exact ih _

theorem layoutFields_aligned (l : Layout) (fields : List Field) :
    (layoutFields classes alignHints isUnion alignAll l fields).aligned =
      (l.aligned || fields.any fun field => alignHints && field.alignHint.isSome) := by
  induction fields generalizing l with
  | nil => exact (Bool.or_false _).symm
  | cons field fields ih =>
    rw [List.any_cons, ← Bool.or_assoc]
    exact ih _

theorem le_sizeFor (parent : Align) (fields : List Field) (last : Int) :
    last ≤ sizeFor classes alignHints alignAll parent fields last := by
  unfold sizeFor
  split
  · exact le_roundTo _ _
  · exact le_refl _

/-- A body of declarators goes through `layoutField` alone. -/
theorem layoutItems_fields (l last : Layout) (fields : List Field)
    (ended : (fields.map Item.field).foldlM (layoutItem classes alignHints isUnion alignAll) l =
      .ok last) : last = layoutFields classes alignHints isUnion alignAll l fields := by
  induction fields generalizing l with
  | nil =>
    injection ended with same
    exact same.symm
  | cons field fields ih =>
    obtain ⟨mid, one, rest⟩ := foldlM_cons_ok.mp ended
    obtain ⟨_, _, step⟩ := bind_ok_iff.mp one
    injection step with step
    rw [ih mid rest, ← step]
    rfl

end

/-- The layout of an accepted class: members that store something, apart and aligned, and a size
that ends with them. `classes` are those known when the body begins. -/
structure LaidOut (classes : Classes) (alignHints : Bool) (d : ClassDecl) (fields : List Field)
    (cls : ClassType) : Prop where
  stores : ∀ field ∈ fields, Stores classes d.name field.ty
  realises : List.Forall₂ (Realises classes alignHints (alignAllOf alignHints d)) fields cls.members
  apart : MembersApart classes alignHints d.isUnion (alignAllOf alignHints d)
    (startLayout (parentOf classes d.name) (alignAllOf alignHints d)).off.toInt fields cls.members
  size : cls.size.toInt = sizeFor classes alignHints (alignAllOf alignHints d)
    (startLayout (parentOf classes d.name) (alignAllOf alignHints d)).align fields
    (furthest classes (startLayout (parentOf classes d.name) (alignAllOf alignHints d)).off.toInt
      cls.members)

def exactTotal (classes : Classes) (alignHints : Bool) (d : ClassDecl) (fields : List Field) : Int :=
  sizeFor classes alignHints (alignAllOf alignHints d)
    (startLayout (parentOf classes d.name) (alignAllOf alignHints d)).align fields
    (exactEnd classes alignHints d.isUnion (alignAllOf alignHints d)
      (startLayout (parentOf classes d.name) (alignAllOf alignHints d)).off.toInt fields)

theorem finish_size {classes : Classes} {alignHints isUnion : Bool} {alignAll : Option HintAlign}
    (parent : Option ClassType) (fields : List Field) (cls : ClassType)
    (isExact : Exact classes alignHints isUnion alignAll (startLayout parent alignAll).off.toInt
      fields (layoutFields classes alignHints isUnion alignAll (startLayout parent alignAll) fields))
    (fits : sizeFor classes alignHints alignAll (startLayout parent alignAll).align fields
      (exactEnd classes alignHints isUnion alignAll (startLayout parent alignAll).off.toInt
        fields) < 2 ^ 31) :
    (finish (layoutFields classes alignHints isUnion alignAll (startLayout parent alignAll) fields)
      cls).size.toInt = sizeFor classes alignHints alignAll (startLayout parent alignAll).align
        fields (exactEnd classes alignHints isUnion alignAll
          (startLayout parent alignAll).off.toInt fields) := by
  have aligned : (layoutFields classes alignHints isUnion alignAll (startLayout parent alignAll)
      fields).aligned = isAligned alignHints alignAll fields := layoutFields_aligned _ _
  have wide : (layoutFields classes alignHints isUnion alignAll (startLayout parent alignAll)
      fields).layoutAlign = widest classes alignHints alignAll
        (startLayout parent alignAll).align fields := layoutFields_align _ _
  have packed : (layoutFields classes alignHints isUnion alignAll (startLayout parent alignAll)
      fields).off + 0 = _ := BitVec.add_zero _
  unfold finish sizeFor
  unfold sizeFor at fits
  dsimp only
  rw [← isExact.off] at fits ⊢
  rw [aligned, wide, isExact.neg, packed]
  split
  · next isAligned =>
    rw [if_pos isAligned] at fits
    exact position_exact _ fits
  · rfl

def plainField (name : String) (typespec : Ty) (dims : List Word) : Field :=
  ⟨name, typespec, none, dims, false, none, false, none⟩

def plainClass (name : String) (fields : List Field) : ClassDecl :=
  ⟨name, false, none, some (none, fields.map Item.field)⟩

end Aholyc.Parse
