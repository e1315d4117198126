import Mathlib
import Aholyc.Regex.Matching

/-!
# The buffers of the compiler

`RegexCompileN` computes the sizes of its buffers from the length of the
pattern. Every byte of the pattern pays for two instructions and two ranges,
and no branch of the compiler uses more than it has read, but for one
instruction of an empty branch and the match at the end.
-/

namespace Aholyc.Regex

open Aholyc.Lib.Hoare Aholyc.Text

/-! ## Growth -/

/-- The compiler goes on from `c` to `c'`. Every byte pays for two instructions
and two ranges, and every instruction for one patch; the numbers bound what is
used beyond that. -/
structure Grows (c c' : CRegexCompiler) (count ranges patches : Int) : Prop where
  pattern : c'.pattern = c.pattern
  instructionCapacity : c'.instructionCapacity = c.instructionCapacity
  rangeCapacity : c'.rangeCapacity = c.rangeCapacity
  patchCapacity : c'.patchCapacity = c.patchCapacity
  inside : c.offset ≤ c.pattern.length → c'.offset ≤ c'.pattern.length
  count : (c'.count : Int) - 2 * c'.offset ≤ c.count - 2 * c.offset + count
  ranges : (c'.ranges.length : Int) - 2 * c'.offset ≤ c.ranges.length - 2 * c.offset + ranges
  patches : (c'.patchCount : Int) - c'.count ≤ c.patchCount - c.count + patches

variable {k : Nat} {start : CRegexCompiler} {alternative : Compile CRegexFragment}

section

variable {c mid c' : CRegexCompiler} {e m p e' m' p' : Int}

theorem Grows.refl (c : CRegexCompiler) : Grows c c 0 0 0 where
  pattern := rfl
  instructionCapacity := rfl
  rangeCapacity := rfl
  patchCapacity := rfl
  inside := id
  count := by omega
  ranges := by omega
  patches := by omega

theorem Grows.trans (first : Grows c mid e m p) (second : Grows mid c' e' m' p') :
    Grows c c' (e + e') (m + m') (p + p') where
  pattern := second.pattern.trans first.pattern
  instructionCapacity := second.instructionCapacity.trans first.instructionCapacity
  rangeCapacity := second.rangeCapacity.trans first.rangeCapacity
  patchCapacity := second.patchCapacity.trans first.patchCapacity
  inside := fun inside => second.inside (first.inside inside)
  count := by
    have le := first.count
    have le' := second.count
    omega
  ranges := by
    have le := first.ranges
    have le' := second.ranges
    omega
  patches := by
    have le := first.patches
    have le' := second.patches
    omega

theorem Grows.mono (grows : Grows c c' e m p) (count : e ≤ e') (ranges : m ≤ m')
    (patches : p ≤ p') : Grows c c' e' m' p' :=
  { grows with
    count := by
      have le := grows.count
      omega
    ranges := by
      have le := grows.ranges
      omega
    patches := by
      have le := grows.patches
      omega }

theorem Grows.read {text : List UInt8} (moves : Moves c c' text)
    (only : c' = { c with offset := c'.offset }) :
    Grows c c' (-(2 * text.length)) (-(2 * text.length)) 0 := by
  have offset := moves.offset
  have length := moves.length_le
  rw [CRegexCompiler.left, CRegexCompiler.left, List.length_drop, List.length_drop,
    moves.pattern] at length
  rw [only]
  exact {
    pattern := rfl
    instructionCapacity := rfl
    rangeCapacity := rfl
    patchCapacity := rfl
    inside := fun inside => by
      show c'.offset ≤ c.pattern.length
      omega
    count := by
      show (c.count : Int) - 2 * c'.offset ≤ _
      omega
    ranges := by
      show (c.ranges.length : Int) - 2 * c'.offset ≤ _
      omega
    patches := by
      show (c.patchCount : Int) - c.count ≤ _
      omega }

theorem Grows.adds (instructions : List CRegexInstruction) (ranges : List CRegexRange)
    (patchCount : Nat) (count : (instructions.length : Int) ≤ c.instructions.length + e)
    (length : (ranges.length : Int) ≤ c.ranges.length + m)
    (patches : (patchCount : Int) - instructions.length ≤
      c.patchCount - c.instructions.length + p) :
    Grows c { c with instructions := instructions, ranges := ranges, patchCount := patchCount }
      e m p where
  pattern := rfl
  instructionCapacity := rfl
  rangeCapacity := rfl
  patchCapacity := rfl
  inside := id
  count := by
    show (instructions.length : Int) - 2 * c.offset ≤ c.instructions.length - 2 * c.offset + e
    omega
  ranges := by
    show (ranges.length : Int) - 2 * c.offset ≤ _
    omega
  patches := patches

theorem Fits.grown {k' : Nat} (fits : Fits c k) (grows : Grows c c' e m p) (count : k + e ≤ k')
    (ranges : m ≤ 0) (patches : p ≤ 0) : Fits c' k' where
  instructionCapacity := by
    rw [grows.instructionCapacity, fits.instructionCapacity, grows.pattern]
  rangeCapacity := by rw [grows.rangeCapacity, fits.rangeCapacity, grows.pattern]
  patchCapacity := by rw [grows.patchCapacity, fits.patchCapacity, grows.pattern]
  offset := grows.inside fits.offset
  count := by
    have le := fits.count
    have le' := grows.count
    omega
  ranges := by
    have le := fits.ranges
    have le' := grows.ranges
    omega
  patchCount := by
    have le := fits.patchCount
    have le' := grows.patches
    omega

end

/-- The computation does not stop for want of room, and grows by no more than
the numbers. -/
def Affords {α : Type} (count ranges patches : Int) (run : Compile α) (c : CRegexCompiler) : Prop :=
  Ends NotMemory (fun _ c' => Grows c c' count ranges patches) run c

section

variable {α β : Type} {c : CRegexCompiler} {e m p e' m' p' : Int}

theorem Affords.bind {run : Compile α} {next : α → Compile β} (first : Affords e m p run c)
    (rest : ∀ a mid, Grows c mid e m p → Affords e' m' p' (next a) mid) :
    Affords (e + e') (m + m') (p + p') (run >>= next) c := by
  rw [Affords, ends_bind]
  apply first.mono
  intro a mid grows
  apply (rest a mid grows).mono
  intro b c' more
  exact grows.trans more

end

/-! ## Single steps -/

theorem advance_affords {c : CRegexCompiler} {ch : UInt8} (next : c.next = some ch) :
    Affords (-2) (-2) 0 (advance 1) c :=
  Grows.read (Moves.one next) rfl

theorem setInstruction_affords (index : Nat) (change : CRegexInstruction → CRegexInstruction)
    (c : CRegexCompiler) : Affords 0 0 0 (setInstruction index change) c := by
  have same := List.length_modify change c.instructions index
  apply Grows.adds (c.instructions.modify index change) c.ranges c.patchCount
  · omega
  · omega
  · omega

theorem regexPatchTo_affords (patches : Patches) (target : Nat) (c : CRegexCompiler) :
    Affords 0 0 0 (regexPatchTo patches target) c := by
  have same : (patchedTo c patches target).instructions.length = c.instructions.length :=
    patchedTo_count c patches target
  apply Grows.adds (patchedTo c patches target).instructions c.ranges c.patchCount
  · omega
  · omega
  · omega

theorem regexEmit_affords {c : CRegexCompiler} (fits : Fits c k) (small : k ≤ 1) (op : RegexOp) :
    Affords 1 0 (-1) (regexEmit op) c := by
  apply ((regexEmit_gives op (fits.room small)).weaken fun _ => False.elim).mono
  rintro index c' ⟨_, rfl⟩
  let emitted : List CRegexInstruction := c.instructions ++ [⟨op, none, none, 0, 0, 0, false⟩]
  have one : emitted.length = c.instructions.length + 1 := List.length_append
  apply Grows.adds emitted c.ranges c.patchCount
  · omega
  · omega
  · omega

theorem regexFragmentOne_affords {c : CRegexCompiler} (fits : Fits c k) (small : k ≤ 2)
    (start : Nat) (field : Bool) : Affords 0 0 1 (regexFragmentOne start field) c := by
  have room : c.patchCount < c.patchCapacity := by
    have le := fits.patchCount
    have few := fits.count
    have inside := fits.offset
    rw [fits.patchCapacity]
    omega
  apply ((regexFragmentOne_gives start field room).weaken fun _ => False.elim).mono
  rintro fragment c' ⟨_, rfl⟩
  apply Grows.adds c.instructions c.ranges (c.patchCount + 1)
  · omega
  · omega
  · omega

theorem emitOne_affords {c : CRegexCompiler} (fits : Fits c k) (small : k ≤ 1) (op : RegexOp) :
    Affords 1 0 0 (regexEmit op >>= fun index => regexFragmentOne index false) c := by
  have first := regexEmit_affords fits small op
  have rest : ∀ index mid, Grows c mid 1 0 (-1) →
      Affords 0 0 1 (regexFragmentOne index false) mid := by
    intro index mid grows
    have fits' : Fits mid 2 := fits.grown grows (by omega) (by omega) (by omega)
    exact regexFragmentOne_affords fits' (by omega) index false
  exact first.bind rest

theorem grows_ranges (c : CRegexCompiler) (ranges : List CRegexRange) :
    Grows c (passing c [] ranges) 0 ranges.length 0 := by
  have size : (c.ranges ++ ranges).length = c.ranges.length + ranges.length := List.length_append
  apply Grows.adds c.instructions (c.ranges ++ ranges) c.patchCount
  · omega
  · omega
  · omega

theorem regexRangesAdd_affords {c : CRegexCompiler} (ranges : List CRegexRange)
    (room : c.ranges.length + ranges.length ≤ c.rangeCapacity) :
    Affords 0 ranges.length 0 (regexRangesAdd ranges) c := by
  apply ((regexRangesAdd_gives ranges room).weaken fun _ => False.elim).mono
  rintro _ c' rfl
  exact grows_ranges c ranges

/-! ## Reading -/

theorem regexReadPatternRune_affords (c : CRegexCompiler) :
    Affords (-2) (-2) 0 regexReadPatternRune c := by
  apply (((regexReadPatternRune_reads c).and (regexReadPatternRune_only c)).weaken
    fun _ fails => fails.2).mono
  rintro value c' ⟨⟨text, moves, ch, rfl, _⟩, only⟩
  have positive := List.length_pos_of_ne_nil (String.utf8EncodeChar_ne_nil (c := ch))
  exact (Grows.read moves only).mono (by omega) (by omega) (by omega)

theorem regexReadEscape_affords (c : CRegexCompiler) : Affords (-2) (-2) 0 regexReadEscape c := by
  apply (((regexReadEscape_reads c).and (regexReadEscape_only c)).weaken
    fun _ fails => fails.2).mono
  rintro result c' ⟨⟨text, moves, escapes⟩, only⟩
  have positive := List.length_pos_of_ne_nil escapes.ne_nil
  exact (Grows.read moves only).mono (by omega) (by omega) (by omega)

theorem regexReadMember_affords {c : CRegexCompiler} (more : c.next.any (· ≠ 0x5D) = true) :
    Ends NotMemory (fun result c' => Grows c c' (-2) (-2) 0 ∧
      (result.2 ≠ 0 → Grows c c' (-4) (-4) 0)) regexReadMember c := by
  have notEnd : c.next ≠ some 0x5D := by
    intro same
    simp [same] at more
  apply (((regexReadMember_reads c notEnd).and (regexReadMember_only c)).weaken
    fun _ fails => fails.2).mono
  rintro result c' ⟨⟨text, moves, positive, escaped, spells⟩, only⟩
  refine ⟨(Grows.read moves only).mono (by omega) (by omega) (by omega), fun isKind => ?_⟩
  rw [if_neg isKind] at spells
  have two := spells.size.2 result.2 rfl
  exact (Grows.read moves only).mono (by omega) (by omega) (by omega)

/-! ## Classes -/

theorem classLoop_affords (fuel : Nat) (previous : Option (Nat × Nat)) (any : Bool)
    (c : CRegexCompiler) (fits : Fits c 0) : Affords 0 0 0 (classLoop fuel previous any) c := by
  induction fuel generalizing previous any c with
  | zero => trivial
  | succ fuel ih =>
    have again : ∀ previous any mid, Grows c mid 0 0 0 →
        Ends NotMemory (fun _ c' => Grows c c' 0 0 0) (classLoop fuel previous any) mid := by
      intro previous any mid grows
      apply (ih previous any mid (fits.grown grows (by omega) (by omega) (by omega))).mono
      intro _ c' more
      exact grows.trans more
    simp only [Affords, classLoop, ends_bind, ends_get, ends_ite, ends_pure]
    refine ⟨fun more => ?_, fun _ => Grows.refl c⟩
    apply (regexReadMember_affords more).mono
    rintro ⟨value, kind⟩ mid ⟨grows, pays⟩
    have fitsMid : Fits mid 0 := fits.grown grows (by omega) (by omega) (by omega)
    refine ⟨fun isKind => ?_, fun _ => ?_⟩
    · have few := kindRanges_length kind
      have room : mid.ranges.length + (kindRanges kind).length ≤ mid.rangeCapacity := by
        have paid := (pays isKind).ranges
        have le := fits.ranges
        have inside := fitsMid.offset
        rw [fitsMid.rangeCapacity]
        omega
      apply (regexRangesAdd_affords (kindRanges kind) room).mono
      intro _ after added
      exact again none true after
        (((pays isKind).trans added).mono (by omega) (by omega) (by omega))
    · have adds : Ends NotMemory (fun _ c' => Grows c c' 0 0 0)
          (regexRangeAdd value value >>= fun added => classLoop fuel (some (value, added)) true)
          mid := by
        rw [ends_bind]
        have room : mid.ranges.length < mid.rangeCapacity := by
          have le := fitsMid.ranges
          have inside := fitsMid.offset
          rw [fitsMid.rangeCapacity]
          omega
        apply ((regexRangeAdd_gives value value room).weaken fun _ => False.elim).mono
        rintro index after ⟨_, rfl⟩
        have added := grows_ranges mid [⟨value, value⟩]
        exact again _ true _ ((grows.trans added).mono (by omega) (by simp) (by omega))
      cases previous with
      | none => exact adds
      | some previous =>
        rw [ends_ite]
        refine ⟨fun isDash => ?_, fun _ => adds⟩
        rw [ends_bind]
        apply (regexReadMember_affords isDash.2).mono
        rintro ⟨last, lastKind⟩ after ⟨grows', _⟩
        simp only [ends_bind, ends_get, ends_ite, ends_set, regexCompileFail, ends_throw]
        refine ⟨fun _ => by simp, fun _ => ?_⟩
        have same := List.length_modify
          (fun range : CRegexRange => { range with last := last }) after.ranges previous.2
        have changed := Grows.adds (c := after) (e := 0) (m := 0) (p := 0) after.instructions
          (after.ranges.modify previous.2 fun range => { range with last := last })
          after.patchCount (by omega) (by omega) (by omega)
        exact again none true _
          (((grows.trans grows').trans changed).mono (by omega) (by omega) (by omega))

theorem regexClassBody_affords {c : CRegexCompiler} (fits : Fits c 0) (index rangeStart : Nat)
    (negate : Bool) : Affords 0 0 1 (regexClassBody index rangeStart negate) c := by
  simp only [Affords, regexClassBody, ends_bind, ends_get, ends_ite, regexCompileFail, ends_throw]
  apply (((classLoop_affords _ none false c fits).and (classLoop_reads _ c.ranges none false c
    (left_lt c) (List.append_nil _).symm)).weaken fun _ fails => fails.1).mono
  rintro any mid ⟨grows, text, items, ranges, _, _, _, ends, _⟩
  refine ⟨fun _ => by simp, fun goesOn => ?_⟩
  rw [not_or] at goesOn
  apply (advance_affords (class_closed ends goesOn.1)).mono
  intro _ mid₁ read
  apply (setInstruction_affords index _ mid₁).mono
  intro _ mid₂ set_
  have all := (grows.trans read).trans set_
  have fits₂ : Fits mid₂ 0 := fits.grown all (by omega) (by omega) (by omega)
  apply (regexFragmentOne_affords fits₂ (by omega) index false).mono
  intro _ c' patched
  exact (all.trans patched).mono (by omega) (by omega) (by omega)

theorem regexParseClass_affords {c : CRegexCompiler} (fits : Fits start 0)
    (opened : Grows start c (-2) (-2) 0) :
    Ends NotMemory (fun _ c' => Grows start c' (-1) 0 0) regexParseClass c := by
  have body : ∀ mid index rangeStart negate, Grows start mid (-1) 0 (-1) →
      Ends NotMemory (fun _ c' => Grows start c' (-1) 0 0)
        (regexClassBody index rangeStart negate) mid := by
    intro mid index rangeStart negate grows
    have fitsMid : Fits mid 0 := fits.grown grows (by omega) (by omega) (by omega)
    apply (regexClassBody_affords fitsMid index rangeStart negate).mono
    intro _ c' inside
    exact (grows.trans inside).mono (by omega) (by omega) (by omega)
  have fitsC : Fits c 0 := fits.grown opened (by omega) (by omega) (by omega)
  simp only [regexParseClass, ends_bind, ends_get, ends_ite]
  apply (regexEmit_affords fitsC (by omega) .charClass).mono
  intro index mid emitted
  have grows := opened.trans emitted
  constructor
  · intro isNegated
    apply (advance_affords isNegated).mono
    intro _ mid' read
    exact body mid' index _ true ((grows.trans read).mono (by omega) (by omega) (by omega))
  · intro _
    exact body mid index _ false (grows.mono (by omega) (by omega) (by omega))

/-! ## The levels of the grammar -/

def LevelAffords (count : Int) (run : Compile CRegexFragment) : Prop :=
  ∀ c, Fits c 0 → Affords count 0 0 run c

theorem regexEmptyFragment_affords : LevelAffords 1 regexEmptyFragment :=
  fun _ fits => emitOne_affords fits (by omega) .jump

/-- An instruction of an atom whose first byte is read. -/
theorem atomOne_affords {c : CRegexCompiler} (fits : Fits start 0)
    (read : Grows start c (-2) (-2) 0) (op : RegexOp) :
    Ends NotMemory (fun _ c' => Grows start c' (-1) 0 0)
      (regexEmit op >>= fun index => regexFragmentOne index false) c := by
  have fitsC : Fits c 0 := fits.grown read (by omega) (by omega) (by omega)
  apply (emitOne_affords fitsC (by omega) op).mono
  intro _ c' emitted
  exact (read.trans emitted).mono (by omega) (by omega) (by omega)

theorem atomRune_affords {c : CRegexCompiler} (fits : Fits start 0)
    (read : Grows start c (-2) (-2) 0) (value : Nat) :
    Ends NotMemory (fun _ c' => Grows start c' (-1) 0 0) (do
      let index ← regexEmit .rune
      setInstruction index fun instruction => { instruction with rune := value }
      regexFragmentOne index false) c := by
  have fitsC : Fits c 0 := fits.grown read (by omega) (by omega) (by omega)
  simp only [ends_bind]
  apply (regexEmit_affords fitsC (by omega) .rune).mono
  intro index mid emitted
  apply (setInstruction_affords index _ mid).mono
  intro _ mid' set_
  have grows := (read.trans emitted).trans set_
  have fitsMid : Fits mid' 0 := fits.grown grows (by omega) (by omega) (by omega)
  apply (regexFragmentOne_affords fitsMid (by omega) index false).mono
  intro _ c' patched
  exact (grows.trans patched).mono (by omega) (by omega) (by omega)

theorem atomKind_affords {c : CRegexCompiler} (fits : Fits start 0)
    (read : Grows start c (-4) (-4) 0) (kind : Nat) :
    Ends NotMemory (fun _ c' => Grows start c' (-1) 0 0) (do
      let index ← regexEmit .charClass
      let compiler ← get
      let rangeIndex := compiler.ranges.length
      regexClassKind kind
      let compiler ← get
      setInstruction index fun instruction => { instruction with
        rangeIndex := rangeIndex
        rangeCount := compiler.ranges.length - rangeIndex }
      regexFragmentOne index false) c := by
  have fitsC : Fits c 0 := fits.grown read (by omega) (by omega) (by omega)
  simp only [ends_bind, ends_get]
  apply (regexEmit_affords fitsC (by omega) .charClass).mono
  intro index mid emitted
  have grows := read.trans emitted
  have fitsMid : Fits mid 0 := fits.grown grows (by omega) (by omega) (by omega)
  have few := kindRanges_length kind
  have room : mid.ranges.length + (kindRanges kind).length ≤ mid.rangeCapacity := by
    have paid := grows.ranges
    have le := fits.ranges
    have inside := fitsMid.offset
    rw [fitsMid.rangeCapacity]
    omega
  apply (regexRangesAdd_affords (kindRanges kind) room).mono
  intro _ mid' added
  apply (setInstruction_affords index _ mid').mono
  intro _ mid'' set_
  have grows' := (grows.trans added).trans set_
  have fitsLast : Fits mid'' 0 := fits.grown grows' (by omega) (by omega) (by omega)
  apply (regexFragmentOne_affords fitsLast (by omega) index false).mono
  intro _ c' patched
  exact (grows'.trans patched).mono (by omega) (by omega) (by omega)

theorem regexParseAtom_affords (groups : LevelAffords 1 alternative) {c : CRegexCompiler}
    (fits : Fits c 0) (begins : regexAtomBegins c = true) :
    Affords (-1) 0 0 (regexParseAtom alternative) c := by
  obtain ⟨ch, isNext, _⟩ : ∃ ch, c.next = some ch ∧ (ch ≠ 0x29 ∧ ch ≠ 0x7C) := by
    simp only [regexAtomBegins, Option.any_eq_true, decide_eq_true_eq] at begins
    exact begins
  have first : Grows c { c with offset := c.offset + 1 } (-2) (-2) 0 :=
    Grows.read (Moves.one isNext) rfl
  simp only [Affords, regexParseAtom, ends_bind, ends_get, isNext, ends_ite, regexCompileFail,
    ends_throw, advance, ends_modify]
  refine ⟨fun _ => by simp, fun _ => ⟨fun _ => ?_, fun _ => ⟨fun _ => ?_, fun _ =>
    ⟨fun _ => ?_, fun _ => ⟨fun _ => ?_, fun _ => ⟨fun _ => ?_, fun _ => ⟨fun _ => ?_, fun _ =>
      ?_⟩⟩⟩⟩⟩⟩⟩
  · have fitsInside : Fits { c with offset := c.offset + 1 } 0 :=
      fits.grown first (by omega) (by omega) (by omega)
    apply (groups _ fitsInside).mono
    intro fragment mid inside
    refine ⟨fun _ => by simp, fun closed => ?_⟩
    rw [ne_eq, not_not] at closed
    have last : Grows mid { mid with offset := mid.offset + 1 } (-2) (-2) 0 :=
      Grows.read (Moves.one closed) rfl
    exact ((first.trans inside).trans last).mono (by omega) (by omega) (by omega)
  · exact regexParseClass_affords fits first
  · have one := atomOne_affords fits first .any
    rwa [ends_bind] at one
  · have one := atomOne_affords fits first .bol
    rwa [ends_bind] at one
  · have one := atomOne_affords fits first .eol
    rwa [ends_bind] at one
  · apply (regexReadEscape_affords _).mono
    rintro ⟨value, kind⟩ mid read
    constructor
    · intro _
      have both : Grows c mid (-4) (-4) 0 :=
        (first.trans read).mono (by omega) (by omega) (by omega)
      have one := atomKind_affords fits both kind
      simpa only [ends_bind, ends_get] using one
    · intro _
      have both : Grows c mid (-2) (-2) 0 :=
        (first.trans read).mono (by omega) (by omega) (by omega)
      have one := atomRune_affords fits both value
      simpa only [ends_bind] using one
  · rw [Nat.add_sub_cancel]
    apply (regexReadPatternRune_affords c).mono
    intro value mid read
    have one := atomRune_affords fits read value
    simpa only [ends_bind] using one

theorem regexRepeatFragment_affords {c : CRegexCompiler} (fits : Fits c 2) (ch : UInt8)
    (split : Nat) (fragment : CRegexFragment) : Affords 0 0 1 (regexRepeatFragment ch split fragment) c := by
  have one : ∀ mid, Grows c mid 0 0 0 →
      Ends NotMemory (fun _ c' => Grows c c' 0 0 1) (regexFragmentOne split true) mid := by
    intro mid grows
    have fitsMid : Fits mid 2 := fits.grown grows (by omega) (by omega) (by omega)
    apply (regexFragmentOne_affords fitsMid (by omega) split true).mono
    intro _ c' patched
    exact (grows.trans patched).mono (by omega) (by omega) (by omega)
  simp only [Affords, regexRepeatFragment, ends_bind, ends_ite, ends_pure]
  apply (setInstruction_affords split _ c).mono
  intro _ mid set_
  refine ⟨fun _ => ?_, fun _ => ⟨fun _ => ?_, fun _ => one mid set_⟩⟩
  · apply (regexPatchTo_affords fragment.patches split mid).mono
    intro _ mid' patched
    exact one mid' ((set_.trans patched).mono (by omega) (by omega) (by omega))
  · apply (regexPatchTo_affords fragment.patches split mid).mono
    intro _ mid' patched
    exact one mid' ((set_.trans patched).mono (by omega) (by omega) (by omega))

theorem regexParseRepeat_affords (groups : LevelAffords 1 alternative) {c : CRegexCompiler}
    (fits : Fits c 0) (begins : regexAtomBegins c = true) :
    Affords (-1) 0 0 (regexParseRepeat alternative) c := by
  simp only [Affords, regexParseRepeat, ends_bind, ends_get]
  apply (regexParseAtom_affords groups fits begins).mono
  intro fragment mid atom
  split
  next => exact atom
  next ch isOperator =>
    obtain ⟨isNext, _⟩ := Option.filter_eq_some_iff.mp isOperator
    simp only [ends_bind, ends_get, ends_ite, ends_pure, regexCompileFail, ends_throw]
    apply (advance_affords isNext).mono
    intro _ mid₁ read
    have grows := atom.trans read
    have fits₁ : Fits mid₁ 0 := fits.grown grows (by omega) (by omega) (by omega)
    apply (regexEmit_affords fits₁ (by omega) .split).mono
    intro split mid₂ emitted
    have grows' := grows.trans emitted
    have fits₂ : Fits mid₂ 2 := fits.grown grows' (by omega) (by omega) (by omega)
    apply (regexRepeatFragment_affords fits₂ ch split fragment).mono
    intro repeated c' patched
    refine ⟨fun _ => by simp, fun _ => ?_⟩
    exact (grows'.trans patched).mono (by omega) (by omega) (by omega)

theorem sequenceLoop_affords (groups : LevelAffords 1 alternative) (fuel : Nat)
    (result : CRegexFragment) : LevelAffords 0 (sequenceLoop alternative fuel result) := by
  induction fuel generalizing result with
  | zero => exact fun _ _ => trivial
  | succ fuel ih =>
    intro c fits
    simp only [Affords, sequenceLoop, ends_bind, ends_get, ends_ite, ends_pure]
    refine ⟨fun begins => ?_, fun _ => Grows.refl c⟩
    apply (regexParseRepeat_affords groups fits begins).mono
    intro next mid grows
    apply (regexPatchTo_affords result.patches next.start mid).mono
    intro _ mid' patched
    have grows' := grows.trans patched
    have fits' : Fits mid' 0 := fits.grown grows' (by omega) (by omega) (by omega)
    apply (ih _ mid' fits').mono
    intro _ c' more
    exact (grows'.trans more).mono (by omega) (by omega) (by omega)

/-- An empty branch has an instruction that nothing pays for. -/
theorem regexParseSequence_affords (groups : LevelAffords 1 alternative) :
    LevelAffords 1 (regexParseSequence alternative) := by
  intro c fits
  simp only [Affords, regexParseSequence, ends_bind, ends_get, ends_ite]
  constructor
  · intro begins
    apply (regexParseRepeat_affords groups fits begins).mono
    intro result mid grows
    have fits' : Fits mid 0 := fits.grown grows (by omega) (by omega) (by omega)
    apply (sequenceLoop_affords groups _ result mid fits').mono
    intro _ c' more
    exact (grows.trans more).mono (by omega) (by omega) (by omega)
  · intro _
    exact regexEmptyFragment_affords c fits

/-- The bar pays for its split and for an empty branch. -/
theorem alternativeLoop_affords (groups : LevelAffords 1 alternative) (fuel : Nat)
    (result : CRegexFragment) (c : CRegexCompiler) (fits : Fits c 1) :
    Affords 0 0 0 (alternativeLoop alternative fuel result) c := by
  induction fuel generalizing result c with
  | zero => trivial
  | succ fuel ih =>
    simp only [Affords, alternativeLoop, ends_bind, ends_get, ends_ite, ends_pure]
    refine ⟨fun isBar => ?_, fun _ => Grows.refl c⟩
    apply (advance_affords isBar).mono
    intro _ mid₁ bar
    have fits₁ : Fits mid₁ 0 := fits.grown bar (by omega) (by omega) (by omega)
    apply (regexParseSequence_affords groups mid₁ fits₁).mono
    intro right mid₂ branch
    have grows₂ := bar.trans branch
    have fits₂ : Fits mid₂ 0 := fits.grown grows₂ (by omega) (by omega) (by omega)
    apply (regexEmit_affords fits₂ (by omega) .split).mono
    intro split mid₃ emitted
    apply (setInstruction_affords split _ mid₃).mono
    intro _ mid₄ set_
    have grows₄ := (grows₂.trans emitted).trans set_
    have fits₄ : Fits mid₄ 1 := fits.grown grows₄ (by omega) (by omega) (by omega)
    apply (ih _ mid₄ fits₄).mono
    intro _ c' more
    exact (grows₄.trans more).mono (by omega) (by omega) (by omega)

theorem regexParseAlternative_affords (fuel : Nat) :
    LevelAffords 1 (regexParseAlternative fuel) := by
  induction fuel with
  | zero => exact fun _ _ => trivial
  | succ fuel ih =>
    intro c fits
    simp only [Affords, regexParseAlternative, ends_bind, ends_get]
    apply (regexParseSequence_affords ih c fits).mono
    intro result mid grows
    have fits' : Fits mid 1 := fits.grown grows (by omega) (by omega) (by omega)
    apply (alternativeLoop_affords ih _ result mid fits').mono
    intro _ c' more
    exact (grows.trans more).mono (by omega) (by omega) (by omega)

/-! ## Whole compilations -/

structure WithinCapacities (c : CRegexCompiler) : Prop where
  instructions : c.count ≤ c.instructionCapacity
  ranges : c.ranges.length ≤ c.rangeCapacity
  patches : c.patchCount ≤ c.patchCapacity

theorem Fits.within {c : CRegexCompiler} (fits : Fits c 2) : WithinCapacities c := by
  have inside := fits.offset
  have count := fits.count
  have ranges := fits.ranges
  have patches := fits.patchCount
  constructor
  · rw [fits.instructionCapacity]
    omega
  · rw [fits.rangeCapacity]
    omega
  · rw [fits.patchCapacity]
    omega

/-- No compilation asks for more than its buffers hold. -/
theorem compileAll_within (pattern : List UInt8) :
    Ends NotMemory (fun _ c' => WithinCapacities c') compileAll (fromStart pattern) := by
  have fits := fromStart_fits pattern
  simp only [compileAll, ends_bind, ends_get, ends_ite, regexCompileFail, ends_throw, ends_pure]
  apply (regexParseAlternative_affords _ _ fits).mono
  intro fragment mid grows
  refine ⟨fun _ => by simp, fun _ => ?_⟩
  have fits₁ : Fits mid 1 := fits.grown grows (by omega) (by omega) (by omega)
  apply (regexEmit_affords fits₁ (by omega) .matched).mono
  intro final mid₂ emitted
  apply (regexPatchTo_affords fragment.patches final mid₂).mono
  intro _ c' patched
  have all := (grows.trans emitted).trans patched
  have fits₂ : Fits c' 2 := fits.grown all (by omega) (by omega) (by omega)
  exact fits₂.within

/-! ## The block of memory -/

inductive RegexBuffer where
  | instructions | ranges | patches | listA | listB | originA | originB | seen
  deriving DecidableEq, Repr

structure Area where
  start : Nat
  size : Nat

def Area.Apart (one two : Area) : Prop :=
  one.start + one.size ≤ two.start ∨ two.start + two.size ≤ one.start

def instructionBytes (length : Nat) : Nat := ((length * 2 + 2) * instructionSize + 7) / 8 * 8

def rangeBytes (length : Nat) : Nat := (length * 2 + 1) * rangeSize

def listBytes (length : Nat) : Nat := (length * 2 + 2) * 8

/-- Where `RegexCompileN` puts the buffers for a pattern of `length` bytes. -/
def RegexBuffer.area (length : Nat) (buffer : RegexBuffer) : Area :=
  let scratch := instructionBytes length + rangeBytes length
  match buffer with
  | .instructions => ⟨0, (length * 2 + 2) * instructionSize⟩
  | .ranges => ⟨instructionBytes length, rangeBytes length⟩
  | .patches => ⟨scratch, (length * 2 + 2) * 2 * patchSize⟩
  | .listA => ⟨scratch, listBytes length⟩
  | .listB => ⟨scratch + listBytes length, listBytes length⟩
  | .originA => ⟨scratch + listBytes length * 2, listBytes length⟩
  | .originB => ⟨scratch + listBytes length * 3, listBytes length⟩
  | .seen => ⟨scratch + listBytes length * 4, listBytes length⟩

/-- The patches end with the compilation, before the first write to `seen`. -/
def RegexBuffer.compiling : RegexBuffer → Bool
  | .instructions | .ranges | .patches => true
  | _ => false

def RegexBuffer.searching : RegexBuffer → Bool
  | .patches => false
  | _ => true

/-- Buffers that hold data at the same time do not overlap, and all lie in the
block, whose size is a number of the machine. -/
def BlockDivided (length size : Nat) : Prop :=
  size ≤ i64Max ∧
    (∀ buffer : RegexBuffer, (buffer.area length).start + (buffer.area length).size ≤ size) ∧
    ∀ one two : RegexBuffer, one ≠ two →
      (one.compiling && two.compiling || one.searching && two.searching) = true →
      (one.area length).Apart (two.area length)

theorem instructions_fit (length : Nat) :
    (length * 2 + 2) * instructionSize ≤ instructionBytes length := by
  unfold instructionBytes
  omega

theorem lists_fit (length : Nat) : listBytes length * 5 ≤ (length * 2 + 2) * 2 * patchSize := by
  unfold listBytes patchSize
  omega

theorem regexMemorySize_eq {length size : Nat} (isSize : regexMemorySize length = some size) :
    size = instructionBytes length + rangeBytes length + (length * 2 + 2) * 2 * patchSize ∧
      size ≤ i64Max := by
  unfold regexMemorySize at isSize
  split at isSize
  next => cases isSize
  next =>
    dsimp only at isSize
    split at isSize
    next => cases isSize
    next =>
      split at isSize
      next => cases isSize
      next small =>
        rw [not_or] at small
        cases isSize
        refine ⟨rfl, ?_⟩
        simp only [instructionSize, rangeSize, patchSize, i64Max] at small ⊢
        omega

theorem regexMemorySize_divided {length size : Nat} (isSize : regexMemorySize length = some size) :
    BlockDivided length size := by
  obtain ⟨isSum, small⟩ := regexMemorySize_eq isSize
  have first := instructions_fit length
  have last := lists_fit length
  refine ⟨small, ?_, ?_⟩
  · intro buffer
    cases buffer <;> simp only [RegexBuffer.area] <;> omega
  · intro one two differs live
    cases one <;> cases two <;> first
      | exact absurd rfl differs
      | exact absurd live (by decide)
      | simp only [Area.Apart, RegexBuffer.area]; omega

/-! ## Memory errors -/

theorem regexMemorySize_some {length : Nat} (short : length ≤ 2 ^ 55) :
    ∃ size, regexMemorySize length = some size := by
  unfold regexMemorySize
  rw [if_neg (by unfold i64Max; omega)]
  dsimp only
  rw [if_neg (by unfold i64Max instructionSize patchSize rangeSize; omega),
    if_neg (by unfold i64Max instructionSize patchSize rangeSize; omega)]
  exact ⟨_, rfl⟩

/-- The compiler never runs out of its own buffers, which do not overlap: a memory error says that
the allocator gave no memory for them, for every pattern that an address space can hold. -/
theorem regexCompileN_memory (memory : Memory) (pattern : List UInt8) :
    Ends NotMemory (fun _ c' => WithinCapacities c') compileAll (fromStart pattern) ∧
      (memory = .thrown ∧ regexCompileN memory pattern = some (.thrown (failed .ok 0)) ∨
        ∃ regex, regexCompileN memory pattern = some (.returned regex) ∧
          (regex.error = .memory ↔
            memory = .refused ∨ regexMemorySize pattern.length = none)) ∧
      (pattern.length ≤ 2 ^ 55 → ∃ size, regexMemorySize pattern.length = some size) ∧
      ∀ size, regexMemorySize pattern.length = some size → BlockDivided pattern.length size := by
  refine ⟨compileAll_within pattern, ?_, regexMemorySize_some,
    fun size isSize => regexMemorySize_divided isSize⟩
  obtain ⟨isThrown, -, compiled⟩ | ⟨regex, compiled, _⟩ := regexCompileN_sound memory pattern
  · exact .inl ⟨isThrown, compiled⟩
  refine .inr ⟨regex, compiled, ?_⟩
  unfold regexCompileN at compiled
  split at compiled
  next tooLarge =>
    cases compiled
    exact iff_of_true rfl (Or.inr tooLarge)
  next size isSize =>
    cases memory with
    | thrown => cases compiled
    | refused =>
      cases compiled
      exact iff_of_true rfl (Or.inl rfl)
    | given =>
      have noMemory : ¬(Memory.given = .refused ∨ regexMemorySize pattern.length = none) := by
        rintro (isRefused | none)
        · cases isRefused
        · rw [isSize] at none
          cases none
      dsimp only at compiled
      split at compiled
      next => cases compiled
      next error position ended =>
        cases compiled
        exact iff_of_false ((compileAll_within pattern).error ended) noMemory
      next =>
        cases compiled
        exact iff_of_false (fun same => by cases same) noMemory

end Aholyc.Regex
