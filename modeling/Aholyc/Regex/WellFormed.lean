import Aholyc.Regex.Matching

/-!
# Compiled programs are well formed

While a pattern is compiled, a field of an instruction is either set or waits in a patch of an
open fragment. Instructions are only appended: the split of a repetition or of an alternation
stands behind its parts, so that a target that is set stays where it is.
-/

namespace Aholyc.Regex

open Aholyc.Lib.Hoare

def CRegexInstruction.target (instruction : CRegexInstruction) (field : Bool) : Option Nat :=
  if field then instruction.y else instruction.x

def RegexOp.needs : RegexOp → Bool → Bool
  | .matched, _ => false
  | .split, _ => true
  | _, field => !field

structure WellFormed (program : CProgram) : Prop where
  start : ∃ start, program.start = some start ∧ start < program.count
  resolved : ∀ instruction ∈ program.instructions, ∀ field,
    instruction.op.needs field = true → (instruction.target field).isSome = true
  targets : ∀ instruction ∈ program.instructions, ∀ field target,
    instruction.target field = some target → target < program.count
  ranges : ∀ instruction ∈ program.instructions, instruction.op = .charClass →
    instruction.rangeIndex + instruction.rangeCount ≤ program.ranges.length
  matched : ∃ before last, program.instructions = before ++ [last] ∧ last.op = .matched ∧
    ∀ instruction ∈ before, instruction.op ≠ .matched

/-! ## Programs that are not yet complete -/

/-- An instruction of an incomplete program: just the fields in `pending` are open. -/
structure InPlace (count ranges : Nat) (pending : Patches) (index : Nat)
    (instruction : CRegexInstruction) : Prop where
  waits : ∀ field, (index, field) ∈ pending ↔
    instruction.op.needs field = true ∧ instruction.target field = none
  target : ∀ field target, instruction.target field = some target → target < count
  ranges : instruction.rangeIndex + instruction.rangeCount ≤ ranges

structure Filled (instructions : List CRegexInstruction) (ranges : Nat) (pending : Patches) :
    Prop where
  nodup : pending.Nodup
  inside : ∀ patch ∈ pending, patch.1 < instructions.length
  places : ∀ (index : Nat) instruction, instructions[index]? = some instruction →
    InPlace instructions.length ranges pending index instruction

/-- What was emitted stays where it is, and its fields are set but once. -/
structure TargetsKept (instructions instructions' : List CRegexInstruction) : Prop where
  count : instructions.length ≤ instructions'.length
  keeps : ∀ (index : Nat) (instruction : CRegexInstruction),
    instructions[index]? = some instruction →
    ∃ instruction' : CRegexInstruction, instructions'[index]? = some instruction' ∧
      instruction'.op = instruction.op ∧ ∀ field target, instruction.target field = some target →
        instruction'.target field = some target

variable {field : Bool}

section

variable {instructions mid instructions' : List CRegexInstruction} {ranges ranges' : Nat}
  {pending more : Patches} {index target : Nat}

theorem TargetsKept.refl (instructions : List CRegexInstruction) :
    TargetsKept instructions instructions where
  count := Nat.le_refl _
  keeps := fun _ instruction found => ⟨instruction, found, rfl, fun _ _ => id⟩

theorem TargetsKept.trans (first : TargetsKept instructions mid)
    (second : TargetsKept mid instructions') :
    TargetsKept instructions instructions' where
  count := Nat.le_trans first.count second.count
  keeps := by
    intro index instruction found
    have ⟨between, foundMid, op, targets⟩ := first.keeps index instruction found
    have ⟨last, foundLast, op', targets'⟩ := second.keeps index between foundMid
    refine ⟨last, foundLast, op'.trans op, ?_⟩
    intro field target isSet
    exact targets' field target (targets field target isSet)

theorem TargetsKept.append (instructions more : List CRegexInstruction) :
    TargetsKept instructions (instructions ++ more) where
  count := by
    rw [List.length_append]
    exact Nat.le_add_right _ _
  keeps := by
    intro index instruction found
    refine ⟨instruction, ?_, rfl, fun _ _ => id⟩
    exact List.getElem?_append_left (List.getElem?_eq_some_iff.mp found).1 ▸ found

theorem InPlace.mono {count count' : Nat} {instruction : CRegexInstruction}
    (place : InPlace count ranges pending index instruction) (counts : count ≤ count')
    (grows : ranges ≤ ranges') (same : ∀ field, (index, field) ∈ more ↔ (index, field) ∈ pending) :
    InPlace count' ranges' more index instruction where
  waits := fun field => (same field).trans (place.waits field)
  target := fun field target isSet => Nat.lt_of_lt_of_le (place.target field target isSet) counts
  ranges := Nat.le_trans place.ranges grows

theorem Filled.ranged (filled : Filled instructions ranges pending) (grows : ranges ≤ ranges') :
    Filled instructions ranges' pending :=
  { filled with
    places := fun index instruction found =>
      (filled.places index instruction found).mono (Nat.le_refl _) grows fun _ => Iff.rfl }

theorem Filled.perm (filled : Filled instructions ranges pending) (perm : pending.Perm more) :
    Filled instructions ranges more where
  nodup := perm.nodup_iff.mp filled.nodup
  inside := fun patch member => filled.inside patch (perm.mem_iff.mpr member)
  places := fun index instruction found =>
    (filled.places index instruction found).mono (Nat.le_refl _) (Nat.le_refl _)
      fun _ => perm.mem_iff.symm

def opened : RegexOp → Nat → Patches
  | .matched, _ => []
  | .split, index => [(index, false), (index, true)]
  | _, index => [(index, false)]

theorem mem_opened {op : RegexOp} {patch : Nat × Bool} :
    patch ∈ opened op index ↔ patch.1 = index ∧ op.needs patch.2 = true := by
  obtain ⟨at_, field⟩ := patch
  cases op <;> cases field <;> simp [opened, RegexOp.needs]

theorem opened_nodup (op : RegexOp) (index : Nat) : (opened op index).Nodup := by
  cases op <;> simp [opened]

theorem Filled.emit (filled : Filled instructions ranges pending) (op : RegexOp) :
    Filled (instructions ++ [⟨op, none, none, 0, 0, 0, false⟩]) ranges
      (pending ++ opened op instructions.length) where
  nodup := by
    rw [List.nodup_append]
    refine ⟨filled.nodup, opened_nodup _ _, ?_⟩
    intro patch old patch' new same
    rw [← same, mem_opened] at new
    have inside := filled.inside patch old
    omega
  inside := by
    intro patch member
    rw [List.length_append, List.length_singleton]
    cases List.mem_append.mp member with
    | inl old =>
      have inside := filled.inside patch old
      omega
    | inr new =>
      have isLast := (mem_opened.mp new).1
      omega
  places := by
    intro index instruction found
    by_cases last : index < instructions.length
    · rw [List.getElem?_append_left last] at found
      apply (filled.places index instruction found).mono
      · rw [List.length_append]
        exact Nat.le_add_right _ _
      · exact Nat.le_refl _
      · intro field
        rw [List.mem_append, mem_opened]
        exact or_iff_left fun new => absurd new.1 (Nat.ne_of_lt last)
    · have isLast : index = instructions.length := by
        have inside := (List.getElem?_eq_some_iff.mp found).1
        rw [List.length_append, List.length_singleton] at inside
        omega
      rw [isLast, List.getElem?_concat_length] at found
      cases found
      constructor
      · intro field
        rw [List.mem_append, mem_opened]
        constructor
        · intro member
          cases member with
          | inl old => exact absurd (filled.inside _ old) last
          | inr new => exact ⟨new.2, by cases field <;> rfl⟩
        · intro needed
          exact Or.inr ⟨isLast, needed.1⟩
      · intro field target isSet
        cases field <;> cases isSet
      · exact Nat.zero_le _

theorem Filled.change (filled : Filled instructions ranges pending) (index : Nat)
    (change : CRegexInstruction → CRegexInstruction)
    (op : ∀ instruction, (change instruction).op = instruction.op)
    (same : ∀ instruction field, (change instruction).target field = instruction.target field)
    (inTable : ∀ instruction, instruction.rangeIndex + instruction.rangeCount ≤ ranges →
      (change instruction).rangeIndex + (change instruction).rangeCount ≤ ranges) :
    Filled (instructions.modify index change) ranges pending ∧
      TargetsKept instructions (instructions.modify index change) := by
  constructor
  · constructor
    · exact filled.nodup
    · rw [List.length_modify]
      exact filled.inside
    · intro at_ instruction found
      rw [List.length_modify]
      rw [List.getElem?_modify, Option.map_eq_map] at found
      have ⟨before, foundBefore, isChanged⟩ := Option.map_eq_some_iff.mp found
      have place := filled.places at_ before foundBefore
      by_cases here : index = at_
      · rw [if_pos here] at isChanged
        rw [← isChanged]
        constructor
        · intro field
          rw [op, same]
          exact place.waits field
        · intro field
          rw [same]
          exact place.target field
        · exact inTable before place.ranges
      · rw [if_neg here] at isChanged
        rwa [← isChanged]
  · constructor
    · rw [List.length_modify]
    intro at_ instruction found
    rw [List.getElem?_modify, found, Option.map_eq_map, Option.map_some]
    refine ⟨_, rfl, ?_⟩
    by_cases here : index = at_
    · rw [if_pos here]
      refine ⟨op instruction, ?_⟩
      intro field target isSet
      rw [same]
      exact isSet
    · rw [if_neg here]
      exact ⟨rfl, fun _ _ => id⟩

@[simp] theorem patchField_op (target : Nat) (field : Bool) (instruction : CRegexInstruction) :
    (patchField target field instruction).op = instruction.op := by
  cases field <;> rfl

theorem patchField_target (target : Nat) (field other : Bool) (instruction : CRegexInstruction) :
    (patchField target field instruction).target other =
      if other = field then some target else instruction.target other := by
  cases field <;> cases other <;> rfl

theorem Filled.point (filled : Filled instructions ranges (pending ++ [(index, field)]))
    (target : Nat) (inside : target < instructions.length) :
    Filled (instructions.modify index (patchField target field)) ranges pending ∧
      TargetsKept instructions (instructions.modify index (patchField target field)) := by
  have nodup := List.nodup_append.mp filled.nodup
  have resolved : (index, field) ∉ pending := by
    intro member
    exact nodup.2.2 _ member _ (List.mem_singleton.mpr rfl) rfl
  have others : ∀ patch, patch ≠ (index, field) →
      (patch ∈ pending ↔ patch ∈ pending ++ [(index, field)]) := by
    intro patch other
    rw [List.mem_append, List.mem_singleton]
    exact (or_iff_left other).symm
  constructor
  · constructor
    · exact nodup.1
    · intro patch member
      rw [List.length_modify]
      exact filled.inside patch (List.mem_append_left _ member)
    · intro at_ instruction found
      rw [List.length_modify]
      rw [List.getElem?_modify, Option.map_eq_map] at found
      have ⟨before, foundBefore, isChanged⟩ := Option.map_eq_some_iff.mp found
      have place := filled.places at_ before foundBefore
      by_cases here : index = at_
      · rw [if_pos here] at isChanged
        rw [← isChanged]
        constructor
        · intro other
          rw [patchField_op, patchField_target]
          by_cases isField : other = field
          · rw [if_pos isField, isField, ← here]
            exact iff_of_false resolved fun open_ => Option.some_ne_none _ open_.2
          · rw [if_neg isField, others (at_, other) fun same => isField (Prod.mk.inj same).2]
            exact place.waits other
        · intro other new isSet
          rw [patchField_target] at isSet
          by_cases isField : other = field
          · rw [if_pos isField] at isSet
            cases isSet
            exact inside
          · rw [if_neg isField] at isSet
            exact place.target other new isSet
        · cases field <;> exact place.ranges
      · rw [if_neg here] at isChanged
        rw [← isChanged]
        apply place.mono (Nat.le_refl _) (Nat.le_refl _)
        intro other
        exact others (at_, other) fun same => here (Prod.mk.inj same).1.symm
  · constructor
    · rw [List.length_modify]
    intro at_ instruction found
    have place := filled.places at_ instruction found
    rw [List.getElem?_modify, found, Option.map_eq_map, Option.map_some]
    refine ⟨_, rfl, ?_⟩
    by_cases here : index = at_
    · rw [if_pos here]
      refine ⟨patchField_op _ _ _, ?_⟩
      intro other old isSet
      rw [patchField_target]
      by_cases isField : other = field
      · -- the field was open, so it is not one that was set
        have open_ : (at_, other) ∈ pending ++ [(index, field)] := by
          rw [isField, here]
          exact List.mem_append_right _ (List.mem_singleton.mpr rfl)
        rw [(place.waits other).mp open_ |>.2] at isSet
        cases isSet
      · rw [if_neg isField]
        exact isSet
    · rw [if_neg here]
      exact ⟨rfl, fun _ _ => id⟩

theorem Filled.patchTo (patches : Patches)
    (filled : Filled instructions ranges (pending ++ patches))
    (target : Nat) (inside : target < instructions.length) :
    Filled (patches.foldl (fun instructions patch =>
        instructions.modify patch.1 (patchField target patch.2)) instructions) ranges pending ∧
      TargetsKept instructions (patches.foldl (fun instructions patch =>
        instructions.modify patch.1 (patchField target patch.2)) instructions) := by
  induction patches generalizing instructions with
  | nil =>
    rw [List.append_nil] at filled
    exact ⟨filled, TargetsKept.refl instructions⟩
  | cons patch rest ih =>
    have first : Filled instructions ranges ((pending ++ rest) ++ [(patch.1, patch.2)]) := by
      apply filled.perm
      rw [List.append_assoc]
      exact List.Perm.append_left pending (List.perm_append_singleton patch rest).symm
    have ⟨pointed, kept⟩ := first.point target inside
    have ⟨rested, kept'⟩ := ih pointed (by rwa [List.length_modify])
    exact ⟨rested, kept.trans kept'⟩

end

/-! ## The compiler -/

/-- The compiler goes on from `start` to `c`, where the fields in `pending` are open. -/
structure Goes (start c : CRegexCompiler) (pending : Patches) : Prop where
  filled : Filled c.instructions c.ranges.length pending
  unmatched : RegexOp.matched ∉ c.instructions.map CRegexInstruction.op
  kept : TargetsKept start.instructions c.instructions

/-- Whatever is open in front of it, the computation leaves a fragment with its own patches, and
every target that was set before is kept. -/
def Relocates (run : Compile CRegexFragment) : Prop :=
  ∀ start c pending, Goes start c pending → Ends (fun _ => True) (fun fragment c' =>
    Goes start c' (pending ++ fragment.patches) ∧ fragment.start < c'.count) run c

theorem map_op_modify (instructions : List CRegexInstruction) (index : Nat)
    {change : CRegexInstruction → CRegexInstruction}
    (op : ∀ instruction, (change instruction).op = instruction.op) :
    (instructions.modify index change).map CRegexInstruction.op =
      instructions.map CRegexInstruction.op := by
  apply List.ext_getElem?
  intro at_
  rw [List.getElem?_map, List.getElem?_map, List.getElem?_modify, Option.map_eq_map]
  by_cases here : index = at_
  · simp only [if_pos here]
    rw [Option.map_map]
    exact congrArg (Option.map · _) (funext op)
  · simp only [if_neg here]
    rw [Option.map_id']

section

variable {start c c' : CRegexCompiler} {pending : Patches} {index target : Nat}

theorem Goes.perm {more : Patches} (goes : Goes start c pending) (perm : pending.Perm more) :
    Goes start c more :=
  { goes with filled := goes.filled.perm perm }

theorem Goes.still (goes : Goes start c pending) (same : c'.instructions = c.instructions)
    (grows : c.ranges.length ≤ c'.ranges.length) : Goes start c' pending := by
  constructor
  · rw [same]
    exact goes.filled.ranged grows
  · rw [same]
    exact goes.unmatched
  · rw [same]
    exact goes.kept

theorem Goes.change (goes : Goes start c pending) (index : Nat)
    (change : CRegexInstruction → CRegexInstruction)
    (op : ∀ instruction, (change instruction).op = instruction.op)
    (same : ∀ instruction field, (change instruction).target field = instruction.target field)
    (inTable : ∀ instruction, instruction.rangeIndex + instruction.rangeCount ≤ c.ranges.length →
      (change instruction).rangeIndex + (change instruction).rangeCount ≤ c.ranges.length) :
    Goes start { c with instructions := c.instructions.modify index change } pending := by
  have ⟨filled, kept⟩ := goes.filled.change index change op same inTable
  constructor
  · exact filled
  · change _ ∉ (c.instructions.modify index change).map CRegexInstruction.op
    rw [map_op_modify _ _ op]
    exact goes.unmatched
  · exact goes.kept.trans kept

theorem Goes.point (goes : Goes start c (pending ++ [(index, field)])) (target : Nat)
    (inside : target < c.count) :
    Goes start { c with instructions := c.instructions.modify index (patchField target field) }
      pending := by
  have ⟨filled, kept⟩ := goes.filled.point target inside
  constructor
  · exact filled
  · change _ ∉ (c.instructions.modify index (patchField target field)).map CRegexInstruction.op
    rw [map_op_modify _ _ (patchField_op target field)]
    exact goes.unmatched
  · exact goes.kept.trans kept

theorem map_op_patchTo (patches : Patches) (target : Nat) (instructions : List CRegexInstruction) :
    (patches.foldl (fun instructions patch =>
      instructions.modify patch.1 (patchField target patch.2)) instructions).map
        CRegexInstruction.op = instructions.map CRegexInstruction.op := by
  induction patches generalizing instructions with
  | nil => rfl
  | cons patch rest ih =>
    rw [List.foldl_cons, ih]
    exact map_op_modify instructions patch.1 (patchField_op target patch.2)

theorem Goes.patchTo {patches : Patches} (goes : Goes start c (pending ++ patches))
    (inside : target < c.count) : Goes start (patchedTo c patches target) pending := by
  have ⟨filled, kept⟩ := goes.filled.patchTo patches target inside
  constructor
  · exact filled
  · have same := map_op_patchTo patches target c.instructions
    change (patchedTo c patches target).instructions.map CRegexInstruction.op = _ at same
    rw [same]
    exact goes.unmatched
  · exact goes.kept.trans kept

theorem regexEmit_goes (goes : Goes start c pending) (op : RegexOp) (goesOn : op ≠ .matched) :
    Ends (fun _ => True) (fun index c' => index < c'.count ∧ c.count ≤ c'.count ∧
      Goes start c' (pending ++ opened op index)) (regexEmit op) c := by
  simp only [regexEmit, ends_bind, ends_get, ends_ite, ends_set, ends_pure, regexCompileFail,
    ends_throw]
  refine ⟨fun _ => trivial, fun _ => ⟨?_, ?_, ?_⟩⟩
  · rw [CRegexCompiler.count, CRegexCompiler.count, List.length_append]
    exact Nat.lt_succ_self _
  · rw [CRegexCompiler.count, CRegexCompiler.count, List.length_append]
    exact Nat.le_add_right _ _
  · constructor
    · exact goes.filled.emit op
    · rw [List.map_append, List.mem_append, not_or]
      refine ⟨goes.unmatched, ?_⟩
      rw [List.map_singleton, List.mem_singleton]
      exact goesOn.symm
    · exact goes.kept.trans (TargetsKept.append _ _)

theorem regexFragmentOne_goes (goes : Goes start c (pending ++ [(index, field)])) :
    Ends (fun _ => True) (fun fragment c' => fragment = ⟨index, [(index, field)]⟩ ∧
      c'.count = c.count ∧ Goes start c' (pending ++ [(index, field)]))
      (regexFragmentOne index field) c := by
  simp only [regexFragmentOne, regexPatchNew, ends_bind, ends_get, ends_ite, ends_set, ends_pure,
    regexCompileFail, ends_throw]
  exact ⟨fun _ => trivial, fun _ => ⟨trivial, trivial, goes.still rfl (Nat.le_refl _)⟩⟩

theorem regexFragmentOne_relocates (goes : Goes start c (pending ++ [(index, false)]))
    (inside : index < c.count) : Ends (fun _ => True) (fun fragment c' =>
      Goes start c' (pending ++ fragment.patches) ∧ fragment.start < c'.count)
      (regexFragmentOne index false) c := by
  apply (regexFragmentOne_goes goes).mono
  intro fragment c' ⟨isOne, count, goes'⟩
  rw [isOne, count]
  exact ⟨goes', inside⟩

theorem regexEmptyFragment_relocates : Relocates regexEmptyFragment := by
  intro start c pending goes
  unfold regexEmptyFragment
  rw [ends_bind]
  apply (regexEmit_goes goes .jump (by decide)).mono
  intro index mid ⟨inside, _, goes₁⟩
  exact regexFragmentOne_relocates goes₁ inside

/-! ## Atoms -/

def Widens {α : Type} (run : Compile α) : Prop :=
  ∀ c, Ends (fun _ => True) (fun _ c' => c'.instructions = c.instructions ∧
    c.ranges.length ≤ c'.ranges.length) run c

theorem widens_of_only {α : Type} {run : Compile α} (only : OnlyReads run) : Widens run := by
  intro c
  apply ((only c).weaken fun _ _ => trivial).mono
  intro _ c' isOnly
  rw [isOnly]
  exact ⟨rfl, Nat.le_refl _⟩

theorem Widens.bind {α β : Type} {x : Compile α} {f : α → Compile β} (first : Widens x)
    (rest : ∀ a, Widens (f a)) : Widens (x >>= f) := by
  intro c
  rw [ends_bind]
  apply (first c).mono
  intro a mid ⟨same, grows⟩
  apply (rest a mid).mono
  intro b c' ⟨same', grows'⟩
  exact ⟨same'.trans same, Nat.le_trans grows grows'⟩

theorem regexRangeAdd_widens (first last : Nat) : Widens (regexRangeAdd first last) := by
  intro c
  apply ((regexRangeAdd_adds first last c).weaken fun _ _ => trivial).mono
  intro index c' ⟨_, isAdded⟩
  rw [isAdded]
  refine ⟨rfl, ?_⟩
  rw [List.length_append]
  exact Nat.le_add_right _ _

theorem regexRangesAdd_widens (ranges : List CRegexRange) : Widens (regexRangesAdd ranges) := by
  intro c
  apply ((regexRangesAdd_adds ranges c).weaken fun _ _ => trivial).mono
  intro _ c' isAdded
  rw [isAdded]
  refine ⟨rfl, ?_⟩
  rw [List.length_append]
  exact Nat.le_add_right _ _

theorem classLoop_widens (fuel : Nat) (previous : Option (Nat × Nat)) (any : Bool) :
    Widens (classLoop fuel previous any) := by
  induction fuel generalizing previous any with
  | zero => exact fun _ => trivial
  | succ fuel ih =>
    intro c
    have adds : ∀ value, Widens (regexRangeAdd value value >>= fun added =>
        classLoop fuel (some (value, added)) true) := fun value =>
      (regexRangeAdd_widens value value).bind fun added => ih (some (value, added)) true
    simp only [classLoop, ends_bind, ends_get, ends_ite, ends_pure]
    refine ⟨fun _ => ?_, fun _ => ⟨trivial, Nat.le_refl _⟩⟩
    apply (widens_of_only regexReadMember_only c).mono
    rintro ⟨value, kind⟩ mid ⟨same, grows⟩
    have goOn : ∀ {run : Compile Bool}, Widens run → Ends (fun _ => True) (fun _ c' =>
        c'.instructions = c.instructions ∧ c.ranges.length ≤ c'.ranges.length) run mid := by
      intro run widens
      apply (widens mid).mono
      rintro _ c' ⟨same', grows'⟩
      exact ⟨same'.trans same, Nat.le_trans grows grows'⟩
    refine ⟨fun _ => ?_, fun _ => ?_⟩
    · rw [← ends_bind]
      exact goOn ((regexRangesAdd_widens (kindRanges kind)).bind fun _ => ih none true)
    cases previous with
    | none => exact goOn (adds value)
    | some previous =>
      rw [ends_ite]
      refine ⟨fun _ => ?_, fun _ => goOn (adds value)⟩
      rw [ends_bind]
      apply (widens_of_only regexReadMember_only mid).mono
      rintro ⟨last, lastKind⟩ after ⟨same', grows'⟩
      simp only [ends_bind, ends_get, ends_ite, ends_set, regexCompileFail, ends_throw]
      refine ⟨fun _ => trivial, fun _ => ?_⟩
      apply (ih none true _).mono
      rintro _ c' ⟨same'', grows''⟩
      rw [List.length_modify] at grows''
      exact ⟨same''.trans (same'.trans same),
        Nat.le_trans grows (Nat.le_trans grows' grows'')⟩

/-- Behind the bracket: the ranges of the class are those that the loop has added. -/
theorem regexClassBody_relocates (goes : Goes start c (pending ++ [(index, false)]))
    (inside : index < c.count) (rangeStart : Nat) (known : rangeStart ≤ c.ranges.length)
    (negate : Bool) : Ends (fun _ => True) (fun fragment c' =>
      Goes start c' (pending ++ fragment.patches) ∧ fragment.start < c'.count)
      (regexClassBody index rangeStart negate) c := by
  simp only [regexClassBody, ends_bind, ends_get, ends_ite, regexCompileFail, ends_throw]
  apply (classLoop_widens _ none false c).mono
  rintro any mid ⟨same, grows⟩
  refine ⟨fun _ => trivial, fun _ => ?_⟩
  have goes₁ : Goes start { mid with offset := mid.offset + 1 } (pending ++ [(index, false)]) :=
    goes.still same grows
  have goes₂ := goes₁.change index (fun instruction => { instruction with
      rangeIndex := rangeStart
      rangeCount := mid.ranges.length - rangeStart
      negate := negate }) (fun _ => rfl) (fun _ _ => rfl) fun _ _ => by
    change rangeStart + (mid.ranges.length - rangeStart) ≤ mid.ranges.length
    omega
  apply regexFragmentOne_relocates goes₂
  change index < (mid.instructions.modify index _).length
  rw [List.length_modify, same]
  exact inside

theorem regexParseClass_relocates : Relocates regexParseClass := by
  intro start c pending goes
  simp only [regexParseClass, ends_bind, ends_get, ends_ite]
  apply (regexEmit_goes goes .charClass (by decide)).mono
  rintro index mid ⟨inside, _, goes₁⟩
  constructor
  · intro _
    exact regexClassBody_relocates (c := { mid with offset := mid.offset + 1 })
      (goes₁.still rfl (Nat.le_refl _)) inside mid.ranges.length (Nat.le_refl _) true
  · intro _
    exact regexClassBody_relocates goes₁ inside mid.ranges.length (Nat.le_refl _) false

theorem atomOne_relocates (op : RegexOp) (goesOn : opened op = fun index => [(index, false)]) :
    Relocates (regexEmit op >>= fun index => regexFragmentOne index false) := by
  intro start c pending goes
  rw [ends_bind]
  apply (regexEmit_goes goes op ?_).mono
  · rintro index mid ⟨inside, _, goes₁⟩
    rw [goesOn] at goes₁
    exact regexFragmentOne_relocates goes₁ inside
  · intro isMatched
    rw [isMatched] at goesOn
    cases congrFun goesOn 0

theorem atomRune_relocates (value : Nat) : Relocates (do
    let index ← regexEmit .rune
    setInstruction index fun instruction => { instruction with rune := value }
    regexFragmentOne index false) := by
  intro start c pending goes
  simp only [ends_bind]
  apply (regexEmit_goes goes .rune (by decide)).mono
  rintro index mid ⟨inside, _, goes₁⟩
  have goes₂ := goes₁.change index (fun instruction => { instruction with rune := value })
    (fun _ => rfl) (fun _ _ => rfl) fun _ inTable => inTable
  apply regexFragmentOne_relocates goes₂
  change index < (mid.instructions.modify index _).length
  rw [List.length_modify]
  exact inside

theorem atomKind_relocates (kind : Nat) : Relocates (do
    let index ← regexEmit .charClass
    let compiler ← get
    let rangeIndex := compiler.ranges.length
    regexClassKind kind
    let compiler ← get
    setInstruction index fun instruction => { instruction with
      rangeIndex := rangeIndex
      rangeCount := compiler.ranges.length - rangeIndex }
    regexFragmentOne index false) := by
  intro start c pending goes
  simp only [ends_bind, ends_get]
  apply (regexEmit_goes goes .charClass (by decide)).mono
  rintro index mid ⟨inside, _, goes₁⟩
  apply (regexRangesAdd_widens (kindRanges kind) mid).mono
  rintro _ after ⟨same, grows⟩
  have goes₂ := (goes₁.still same grows).change index (fun instruction =>
      { instruction with
        rangeIndex := mid.ranges.length
        rangeCount := after.ranges.length - mid.ranges.length }) (fun _ => rfl) (fun _ _ => rfl)
    fun _ _ => by
      change mid.ranges.length + (after.ranges.length - mid.ranges.length) ≤ after.ranges.length
      omega
  apply regexFragmentOne_relocates goes₂
  change index < (after.instructions.modify index _).length
  rw [List.length_modify, same]
  exact inside

variable {alternative : Compile CRegexFragment}

theorem regexParseAtom_relocates (groups : Relocates alternative) :
    Relocates (regexParseAtom alternative) := by
  intro start c pending goes
  have read : ∀ offset, Goes start { c with offset := offset } pending := fun offset =>
    goes.still rfl (Nat.le_refl _)
  simp only [regexParseAtom, ends_bind, ends_get]
  cases isNext : c.next with
  | none => exact regexEmptyFragment_relocates start c pending goes
  | some ch =>
    simp only [ends_bind, ends_ite, regexCompileFail, ends_throw, advance, ends_modify]
    refine ⟨fun _ => trivial, fun _ => ⟨fun _ => ?_, fun _ => ⟨fun _ => ?_, fun _ =>
      ⟨fun _ => ?_, fun _ => ⟨fun _ => ?_, fun _ => ⟨fun _ => ?_, fun _ => ⟨fun _ => ?_, fun _ =>
        ?_⟩⟩⟩⟩⟩⟩⟩
    · apply (groups start _ pending (read _)).mono
      rintro fragment mid ⟨goes₁, inside⟩
      simp only [ends_get, ends_pure]
      exact ⟨fun _ => trivial, fun _ => ⟨goes₁.still rfl (Nat.le_refl _), inside⟩⟩
    · exact regexParseClass_relocates start _ pending (read _)
    · have one := atomOne_relocates .any rfl start _ pending (read (c.offset + 1))
      rwa [ends_bind] at one
    · have one := atomOne_relocates .bol rfl start _ pending (read (c.offset + 1))
      rwa [ends_bind] at one
    · have one := atomOne_relocates .eol rfl start _ pending (read (c.offset + 1))
      rwa [ends_bind] at one
    · apply (widens_of_only regexReadEscape_only _).mono
      rintro ⟨value, kind⟩ mid ⟨same, grows⟩
      have goes₁ : Goes start mid pending := (read (c.offset + 1)).still same grows
      constructor
      · intro _
        have one := atomKind_relocates kind start mid pending goes₁
        simpa only [ends_bind, ends_get] using one
      · intro _
        have one := atomRune_relocates value start mid pending goes₁
        simpa only [ends_bind] using one
    · apply (widens_of_only regexReadPatternRune_only _).mono
      rintro value mid ⟨same, grows⟩
      have one := atomRune_relocates value start mid pending ((read _).still same grows)
      simpa only [ends_bind] using one

/-! ## Repetitions, sequences and alternations -/

theorem perm_middle (pending one two : Patches) :
    ((pending ++ one) ++ two).Perm ((pending ++ two) ++ one) := by
  rw [List.append_assoc, List.append_assoc]
  exact List.perm_append_comm.append_left pending

theorem Goes.here (goes : Goes start c pending) : Goes c c pending :=
  { goes with kept := TargetsKept.refl _ }

theorem Relocates.grows {run : Compile CRegexFragment} (relocates : Relocates run)
    (goes : Goes start c pending) : Ends (fun _ => True) (fun fragment c' =>
      (Goes start c' (pending ++ fragment.patches) ∧ fragment.start < c'.count) ∧
        c.count ≤ c'.count) run c := by
  apply (((relocates start c pending goes).and (relocates c c pending goes.here)).weaken
    fun _ _ => trivial).mono
  rintro fragment c' ⟨leaves, own, _⟩
  exact ⟨leaves, own.kept.count⟩

theorem regexPatchTo_goes {patches : Patches} (goes : Goes start c (pending ++ patches))
    (inside : target < c.count) : Ends (fun _ => True) (fun _ c' =>
      Goes start c' pending ∧ c'.count = c.count) (regexPatchTo patches target) c :=
  ⟨goes.patchTo inside, patchedTo_count c patches target⟩

/-- The split stands behind the repeated fragment, which stays where it is. -/
theorem regexRepeatFragment_relocates {split : Nat} {fragment : CRegexFragment}
    (goes : Goes start c ((pending ++ fragment.patches) ++ [(split, false), (split, true)]))
    (begins : fragment.start < c.count) (inside : split < c.count) (ch : UInt8) :
    Ends (fun _ => True) (fun fragment c' =>
      Goes start c' (pending ++ fragment.patches) ∧ fragment.start < c'.count)
      (regexRepeatFragment ch split fragment) c := by
  have first : Goes start c
      (((pending ++ fragment.patches) ++ [(split, true)]) ++ [(split, false)]) := by
    apply goes.perm
    rw [List.append_assoc _ [(split, true)]]
    exact (List.Perm.swap _ _ []).append_left _
  have pointed := first.point fragment.start begins
  have open_ := pointed.perm (perm_middle pending fragment.patches [(split, true)])
  have count : (c.instructions.modify split (patchField fragment.start false)).length = c.count :=
    List.length_modify _ _ _
  -- what follows the split is patched, and the split goes on at the fragment
  have again : Ends (fun _ => True) (fun one c' =>
      one = ⟨split, [(split, true)]⟩ ∧ c'.count = c.count ∧
        Goes start c' (pending ++ [(split, true)]))
      (regexPatchTo fragment.patches split >>= fun _ => regexFragmentOne split true)
      { c with instructions := c.instructions.modify split (patchField fragment.start false) } := by
    rw [ends_bind]
    apply (regexPatchTo_goes open_ _).mono
    · rintro _ mid ⟨goes₁, count₁⟩
      apply (regexFragmentOne_goes goes₁).mono
      rintro one c' ⟨isOne, count₂, goes₂⟩
      exact ⟨isOne, (count₂.trans count₁).trans count, goes₂⟩
    · change split < (c.instructions.modify split (patchField fragment.start false)).length
      rw [count]
      exact inside
  unfold regexRepeatFragment
  rw [ends_bind]
  change Ends _ _ _ { c with
    instructions := c.instructions.modify split (patchField fragment.start false) }
  rw [ends_ite]
  constructor
  · intro _
    apply again.mono
    rintro one c' ⟨isOne, count', goes'⟩
    rw [isOne, count']
    exact ⟨goes', inside⟩
  · intro _
    rw [ends_ite]
    constructor
    · intro _
      rw [ends_bind] at again ⊢
      apply again.mono
      intro _ mid patched
      rw [ends_bind]
      apply patched.mono
      rintro one c' ⟨isOne, count', goes'⟩
      rw [isOne, ends_pure, count']
      exact ⟨goes', begins⟩
    · intro _
      rw [ends_bind]
      apply (regexFragmentOne_goes pointed).mono
      rintro one c' ⟨isOne, count', goes'⟩
      rw [isOne, ends_pure, count', ← List.append_assoc]
      refine ⟨goes', ?_⟩
      change split < (c.instructions.modify split (patchField fragment.start false)).length
      rw [count]
      exact inside

theorem regexParseRepeat_relocates (groups : Relocates alternative) :
    Relocates (regexParseRepeat alternative) := by
  intro start c pending goes
  simp only [regexParseRepeat, ends_bind, ends_get]
  apply (regexParseAtom_relocates groups start c pending goes).mono
  rintro fragment mid ⟨goes₁, begins⟩
  split
  next => exact ⟨goes₁, begins⟩
  next ch _ =>
    simp only [ends_bind, ends_get, ends_ite, ends_pure, regexCompileFail, ends_throw, advance,
      ends_modify]
    have read : Goes start { mid with offset := mid.offset + 1 } (pending ++ fragment.patches) :=
      goes₁.still rfl (Nat.le_refl _)
    apply (regexEmit_goes read .split (by decide)).mono
    rintro split mid₂ ⟨inside, grows, goes₂⟩
    apply (regexRepeatFragment_relocates goes₂ (Nat.lt_of_lt_of_le begins grows) inside ch).mono
    intro repeated c' fragments
    exact ⟨fun _ => trivial, fun _ => fragments⟩

theorem sequenceLoop_relocates (groups : Relocates alternative) (fuel : Nat)
    (result : CRegexFragment) (goes : Goes start c (pending ++ result.patches))
    (begins : result.start < c.count) :
    Ends (fun _ => True) (fun fragment c' =>
      Goes start c' (pending ++ fragment.patches) ∧ fragment.start < c'.count)
      (sequenceLoop alternative fuel result) c := by
  induction fuel generalizing result c with
  | zero => trivial
  | succ fuel ih =>
    simp only [sequenceLoop, ends_bind, ends_get, ends_ite, ends_pure]
    refine ⟨fun _ => ?_, fun _ => ⟨goes, begins⟩⟩
    apply ((regexParseRepeat_relocates groups).grows goes).mono
    rintro next mid ⟨⟨goes₁, begins₁⟩, grows⟩
    apply (regexPatchTo_goes (goes₁.perm (perm_middle pending result.patches next.patches))
      begins₁).mono
    rintro _ mid₂ ⟨goes₂, count⟩
    apply ih { result with patches := next.patches } goes₂
    change result.start < mid₂.count
    omega

theorem regexParseSequence_relocates (groups : Relocates alternative) :
    Relocates (regexParseSequence alternative) := by
  intro start c pending goes
  simp only [regexParseSequence, ends_bind, ends_get, ends_ite]
  constructor
  · intro _
    apply (regexParseRepeat_relocates groups start c pending goes).mono
    rintro result mid ⟨goes₁, begins⟩
    exact sequenceLoop_relocates groups _ result goes₁ begins
  · intro _
    exact regexEmptyFragment_relocates start c pending goes

theorem modify_split (instructions : List CRegexInstruction) (split x y : Nat) :
    instructions.modify split (fun instruction => { instruction with x := some x, y := some y }) =
      (instructions.modify split (patchField y true)).modify split (patchField x false) := by
  rw [List.modify_modify_eq]
  rfl

theorem alternativeLoop_relocates (groups : Relocates alternative) (fuel : Nat)
    (result : CRegexFragment) (goes : Goes start c (pending ++ result.patches))
    (begins : result.start < c.count) :
    Ends (fun _ => True) (fun fragment c' =>
      Goes start c' (pending ++ fragment.patches) ∧ fragment.start < c'.count)
      (alternativeLoop alternative fuel result) c := by
  induction fuel generalizing result c with
  | zero => trivial
  | succ fuel ih =>
    simp only [alternativeLoop, ends_bind, ends_get, ends_ite, ends_pure, advance, ends_modify]
    refine ⟨fun _ => ?_, fun _ => ⟨goes, begins⟩⟩
    have read : Goes start { c with offset := c.offset + 1 } (pending ++ result.patches) :=
      goes.still rfl (Nat.le_refl _)
    apply ((regexParseSequence_relocates groups).grows read).mono
    rintro right mid ⟨⟨goes₁, begins₁⟩, grows⟩
    apply (regexEmit_goes goes₁ .split (by decide)).mono
    rintro split mid₂ ⟨inside, grows₁, goes₂⟩
    have second : Goes start mid₂ ((((pending ++ result.patches) ++ right.patches) ++
        [(split, false)]) ++ [(split, true)]) := by
      rw [List.append_assoc _ [(split, false)]]
      exact goes₂
    have pointed := second.point right.start (by omega)
    have both := pointed.point result.start (by
      rw [CRegexCompiler.count, List.length_modify]
      change c.count ≤ mid.count at grows
      change result.start < mid₂.count
      omega)
    have open_ : Goes start { mid₂ with
          instructions := mid₂.instructions.modify split fun instruction =>
            { instruction with x := some result.start, y := some right.start } }
        (pending ++ (result.patches ++ right.patches)) := by
      rw [← List.append_assoc, modify_split]
      exact both
    apply ih ⟨split, result.patches ++ right.patches⟩ open_
    rw [CRegexCompiler.count, List.length_modify]
    exact inside

theorem regexParseAlternative_relocates (fuel : Nat) : Relocates (regexParseAlternative fuel) := by
  induction fuel with
  | zero => exact fun _ _ _ _ => trivial
  | succ fuel ih =>
    intro start c pending goes
    simp only [regexParseAlternative, ends_bind, ends_get]
    apply (regexParseSequence_relocates ih start c pending goes).mono
    rintro result mid ⟨goes₁, begins⟩
    exact alternativeLoop_relocates ih _ result goes₁ begins

end

/-! ## Whole compilations -/

theorem goes_fromStart (pattern : List UInt8) :
    Goes (fromStart pattern) (fromStart pattern) [] where
  filled := {
    nodup := List.nodup_nil
    inside := fun _ member => absurd member (List.not_mem_nil)
    places := by
      intro index instruction found
      cases found }
  unmatched := List.not_mem_nil
  kept := TargetsKept.refl _

/-- With the match behind it, and what is open pointed at it, the program is complete. -/
theorem Goes.complete {start c : CRegexCompiler} {fragment : CRegexFragment}
    (goes : Goes start c fragment.patches) (begins : fragment.start < c.count) :
    WellFormed ⟨(patchedTo { c with instructions := c.instructions ++
      [⟨.matched, none, none, 0, 0, 0, false⟩] } fragment.patches c.count).instructions,
      c.ranges, some fragment.start⟩ := by
  let instructions : List CRegexInstruction :=
    c.instructions ++ [⟨.matched, none, none, 0, 0, 0, false⟩]
  have emitted : Filled instructions c.ranges.length ([] ++ fragment.patches) := by
    have emitted := goes.filled.emit .matched
    change Filled _ _ (fragment.patches ++ []) at emitted
    rwa [List.append_nil] at emitted
  have count : instructions.length = c.count + 1 := List.length_append
  have filled := (emitted.patchTo fragment.patches c.count (by omega)).1
  have length := patchedTo_count { c with instructions := instructions } fragment.patches c.count
  have ops := map_op_patchTo fragment.patches c.count instructions
  rw [List.map_append, List.map_singleton] at ops
  have ⟨before, last, isAppend, isBefore, isLast⟩ := List.map_eq_append_iff.mp ops
  have ⟨final, isFinal, isMatched⟩ := List.map_eq_singleton_iff.mp isLast
  constructor
  · refine ⟨fragment.start, rfl, ?_⟩
    change fragment.start < (patchedTo { c with instructions := instructions } _ _).count
    rw [length]
    change fragment.start < instructions.length
    omega
  · intro instruction member field needs
    have ⟨index, found⟩ := List.getElem?_of_mem member
    have closed := (filled.places index instruction found).waits field
    cases isSet : instruction.target field with
    | none => exact absurd (closed.mpr ⟨needs, isSet⟩) List.not_mem_nil
    | some target => rfl
  · intro instruction member field target isSet
    have ⟨index, found⟩ := List.getElem?_of_mem member
    exact (filled.places index instruction found).target field target isSet
  · intro instruction member _
    have ⟨index, found⟩ := List.getElem?_of_mem member
    exact (filled.places index instruction found).ranges
  · refine ⟨before, final, ?_, isMatched, ?_⟩
    · rw [← isFinal]
      exact isAppend
    · intro instruction member isMatch
      apply goes.unmatched
      rw [← isBefore, ← isMatch]
      exact List.mem_map_of_mem member

theorem compileAll_wellFormed (pattern : List UInt8) :
    Ends (fun _ => True) (fun start c' => WellFormed ⟨c'.instructions, c'.ranges, some start⟩)
      compileAll (fromStart pattern) := by
  simp only [compileAll, ends_bind, ends_get, ends_ite, regexCompileFail, ends_throw]
  apply (regexParseAlternative_relocates _ _ _ [] (goes_fromStart pattern)).mono
  rintro fragment mid ⟨goes, begins⟩
  refine ⟨fun _ => trivial, fun _ => ?_⟩
  simp only [regexEmit, ends_bind, ends_get, ends_ite, ends_set, ends_pure, regexCompileFail,
    ends_throw]
  exact ⟨fun _ => trivial, fun _ => goes.complete begins⟩

/-- Compiled programs are well formed, and no level of the compiler moves a target that is set. -/
theorem regexCompileN_wellFormed (memory : Memory) (pattern : List UInt8) (regex : CRegex)
    (compiled : regexCompileN memory pattern = some (.returned regex)) (ok : regex.error = .ok) :
    WellFormed regex.program ∧ ∀ fuel, Relocates (regexParseAlternative fuel) ∧
      Relocates (regexParseRepeat (regexParseAlternative fuel)) := by
  constructor
  · have wellFormed := compileAll_wellFormed pattern
    unfold regexCompileN at compiled
    split at compiled
    next =>
      cases compiled
      cases ok
    next =>
      cases memory with
      | thrown => cases compiled
      | refused =>
        cases compiled
        cases ok
      | given =>
        dsimp only at compiled
        split at compiled
        next => cases compiled
        next error position ended =>
          cases compiled
          exact absurd ok ((compileAll_parses (fromStart pattern) rfl).error ended)
        next start c ended =>
          cases compiled
          exact wellFormed.result ended
  · intro fuel
    have groups := regexParseAlternative_relocates fuel
    exact ⟨groups, regexParseRepeat_relocates groups⟩

/-- `(a|b)*` -/
theorem regexCompileN_wellFormed_group : ∃ regex,
    regexCompileN .given [0x28, 0x61, 0x7C, 0x62, 0x29, 0x2A] = some (.returned regex) ∧
      WellFormed regex.program := by
  obtain ⟨regex, compiled, ok⟩ :=
    regexCompileN_returned .given [0x28, 0x61, 0x7C, 0x62, 0x29, 0x2A] .ok (by decide +kernel)
  exact ⟨regex, compiled, (regexCompileN_wellFormed .given _ regex compiled ok).1⟩

end Aholyc.Regex
