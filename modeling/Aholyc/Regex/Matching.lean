import Aholyc.Regex.Leftmost
import Aholyc.Regex.Levels

/-!
# Patterns and their matches

A compiled pattern has the matches of its tree. A full match accepts just the
texts of the pattern, as long as no class has an escaped `-` where the range
operator stands. A search returns the leftmost longest match just when the
leftmost start has a match that ends before all others.
-/

namespace Aholyc.Regex

open Aholyc.Lib.Closure Aholyc.Lib.Hoare Aholyc.Text

/-! ## The compiled program -/

def Denotes (program : CProgram) (expr : Expr) : Prop :=
  ∃ start target instruction, program.start = some start ∧ Laid program expr start target ∧
    Fetches program target instruction ∧ instruction.op = .matched

variable {expr : Expr} {pattern text : List UInt8} {program : CProgram} {marks : CMarks}
  {position offset : Nat} {regex : CRegex} {memory : Memory}

/-- The layout of a fragment, with a match where its open fields point. -/
theorem Built.denotes {c c' : CRegexCompiler} {fragment : CRegexFragment}
    (built : Built c c' fragment expr) :
    Denotes ⟨(patchedTo { c' with instructions := c'.instructions ++
      [⟨.matched, none, none, 0, 0, 0, false⟩] } fragment.patches c'.count).instructions,
      c'.ranges, some fragment.start⟩ expr := by
  have within : Within c.count c'.count fragment.patches := built.inside
  refine ⟨fragment.start, c'.count, ⟨.matched, none, none, 0, 0, 0, false⟩, rfl, ?_, ?_, rfl⟩
  · apply built.laid
    refine ⟨fun index _ lt => ?_, List.prefix_refl _⟩
    rw [patchedTo_getElem, List.getElem?_append_left lt]
  · rw [Fetches, patchedTo_getElem, patched_none (within.outside (Or.inr (Nat.le_refl _)))]
    simp

theorem compileAll_gives {tree : Pattern} (spells : Spells .alternative pattern tree)
    (meaning : tree.meaning true = some expr) (c : CRegexCompiler) (isPattern : c.pattern = pattern)
    (atStart : c.offset = 0) (fits : Fits c 0) :
    Gives (fun start c' => c'.count ≤ pattern.length * 2 + 2 ∧
      Denotes ⟨c'.instructions, c'.ranges, some start⟩ expr) compileAll c := by
  have eq : c.left = pattern ++ [] := by
    rw [CRegexCompiler.left, isPattern, atStart, List.drop_zero, List.append_nil]
  have used := fits.count
  simp only [Gives, compileAll, ends_bind, ends_get, ends_ite]
  rw [isPattern]
  refine Ends.mono (alternative_gives spells.gives meaning eq fits (Nat.le_refl _) rfl) ?_
  intro fragment c' compiles
  have offset := compiles.emits.moves.offset
  have count := compiles.emits.count
  refine ⟨fun bad => absurd ?_ bad, fun _ => ?_⟩
  · rw [offset, atStart, compiles.emits.moves.pattern, isPattern, Nat.zero_add]
  refine Ends.mono (regexEmit_gives .matched
    ((fits.after compiles.emits).room (Nat.le_refl 1))) ?_
  rintro final after ⟨rfl, rfl⟩
  simp only [regexPatchTo, ends_modify, ends_pure]
  refine ⟨?_, compiles.built.denotes⟩
  have size : (patchedTo { c' with instructions := c'.instructions ++
      [⟨.matched, none, none, 0, 0, 0, false⟩] } fragment.patches c'.count).count =
        c'.count + 1 := by
    rw [patchedTo_count, CRegexCompiler.count, List.length_append, List.length_singleton]
  apply Nat.le_trans (Nat.le_of_eq size)
  omega

theorem compileAll_parses (c : CRegexCompiler) (atStart : c.offset = 0) :
    Ends Reports (fun _ _ => ∃ tree, Spells .alternative c.pattern tree ∧
      (tree.meaning true).isSome = true) compileAll c := by
  have whole : c.left = c.pattern := by rw [CRegexCompiler.left, atStart, List.drop_zero]
  simp only [compileAll, ends_bind, ends_get, ends_ite, regexCompileFail, ends_throw]
  refine Ends.mono (regexParseAlternative_parses _ c (by rw [whole]; exact Nat.lt_succ_self _)) ?_
  rintro fragment c' ⟨text, tree, moves, spells, isSome⟩
  refine ⟨fun _ => by simp, fun atEnd => ?_⟩
  have all : text = c.pattern := by
    have none : c'.left = [] := by
      rw [CRegexCompiler.left, Decidable.not_not.mp atEnd, List.drop_length]
    have eq := moves.left
    rw [whole, none, List.append_nil] at eq
    exact eq.symm
  refine Ends.mono (regexEmit_stays .matched c') ?_
  intro final after _
  simp only [regexPatchTo, ends_modify, ends_pure]
  exact ⟨tree, all ▸ spells, isSome⟩

/-! ## Matches of the program -/

/-- The bytes of `text` from `start` to `stop` are a match of `expr`. -/
def IsMatch (expr : Expr) (text : List Char) (start stop : Nat) : Prop :=
  ∃ before word behind, text = before ++ word ++ behind ∧ (encode before).length = start ∧
    (encode (before ++ word)).length = stop ∧ Matches expr before word behind

theorem Accepts.last {count : Nat} {config last : Config program} (accepts : Accepts program config)
    (run : Run program count config last) : last = config := by
  have silent : free program config.before config.behind config.state = none :=
    isMatch_leaf accepts config.before config.behind
  cases run with
  | stay => rfl
  | step count _ mid _ first rest =>
    obtain ⟨ch, _, _, _, _, reads, _⟩ := step_read first silent
    simp only [Accepts] at accepts
    simp [regexInstructionMatches, accepts] at reads

theorem Denotes.spans (denotes : Denotes program expr) (text : List Char) (start stop : Nat) :
    Spans program text start stop ↔ IsMatch expr text start stop := by
  obtain ⟨entry, target, instruction, isStart, laid, fetches, op⟩ := denotes
  have inside := laid.start_lt
  have inside' := fetches.lt
  have isEntry : program.state program.start = some ⟨entry, inside⟩ := by
    rw [isStart, state_of_lt inside]
  constructor
  · rintro ⟨_, behind, x, rfl, rfl, ⟨skipped, word, count, first, rfl, rfl, isFirst, run⟩, isMatched⟩
    rw [isEntry] at isFirst
    cases isFirst
    obtain ⟨inner, rest, fewer, isTarget, split, isMatch, _, after⟩ :=
      laid_passes laid count skipped (word ++ behind) ⟨x, skipped ++ word, behind⟩ inside
        isMatched run
    have accepts : Accepts program ⟨⟨target, isTarget⟩, skipped ++ inner, rest⟩ := by
      rw [Accepts, fetches.fetch ⟨target, isTarget⟩]
      exact op
    have same := accepts.last after
    simp only [Config.mk.injEq, List.append_cancel_left_eq] at same
    obtain ⟨_, rfl, rfl⟩ := same
    exact ⟨skipped, word, behind, rfl, rfl, rfl, isMatch⟩
  · rintro ⟨before, word, behind, rfl, rfl, rfl, isMatch⟩
    obtain ⟨count, run⟩ := matches_run isMatch laid inside inside'
    refine ⟨before ++ word, behind, ⟨target, inside'⟩, rfl, rfl,
      ⟨before, word, count, ⟨entry, inside⟩, rfl, rfl, isEntry, run⟩, ?_⟩
    rw [fetches.fetch ⟨target, inside'⟩]
    exact op

/-! ## Compiled patterns -/

def fromStart (pattern : List UInt8) : CRegexCompiler :=
  ⟨pattern, 0, [], [], 0, pattern.length * 2 + 2, pattern.length * 2 + 1,
    (pattern.length * 2 + 2) * 2⟩

theorem fromStart_fits (pattern : List UInt8) : Fits (fromStart pattern) 0 where
  instructionCapacity := rfl
  rangeCapacity := rfl
  patchCapacity := rfl
  offset := Nat.zero_le _
  count := Nat.le_refl _
  ranges := Nat.zero_le _
  patchCount := Nat.le_refl _

theorem regexCompileN_complete {tree : Pattern} (spells : Spells .alternative pattern tree)
    (meaning : tree.meaning true = some expr)
    (small : (regexMemorySize pattern.length).isSome = true) :
    ∃ regex, regexCompileN .given pattern = some (.returned regex) ∧ regex.error = .ok ∧
      Denotes regex.program expr ∧ Ready regex.program regex.marks := by
  obtain ⟨size, isSize⟩ := Option.isSome_iff_exists.mp small
  obtain ⟨start, c, ended, count, denotes⟩ := (compileAll_gives spells meaning
    (fromStart pattern) rfl rfl (fromStart_fits pattern)).ok
  have compiled : regexCompileN .given pattern =
      some (.returned ⟨⟨c.instructions, c.ranges, some start⟩,
        ⟨List.replicate (pattern.length * 2 + 2) 0, 1⟩, .ok, 0⟩) := by
    simp only [fromStart] at ended
    simp [regexCompileN, isSize, ended]
  refine ⟨_, compiled, rfl, denotes, ?_, ?_⟩
  · rw [List.length_replicate]
    exact count
  · intro value inSeen
    rw [(List.mem_replicate.mp (List.mem_of_mem_take inSeen)).2]
    exact Nat.zero_le 1

/-- A compilation is left by the exception of `MAlloc`, or it ends, and without an error only on a
phrase. -/
theorem regexCompileN_sound (memory : Memory) (pattern : List UInt8) :
    memory = .thrown ∧ (regexMemorySize pattern.length).isSome = true ∧
      regexCompileN memory pattern = some (.thrown (failed .ok 0)) ∨
    ∃ regex, regexCompileN memory pattern = some (.returned regex) ∧ (regex.error = .ok →
      memory = .given ∧ (regexMemorySize pattern.length).isSome = true ∧
        ∃ tree, Spells .alternative pattern tree ∧ (tree.meaning true).isSome = true) := by
  have parses := compileAll_parses (fromStart pattern) rfl
  have isError : ∀ error position, RegexError.ok ≠ error → (failed error position).error = .ok →
      memory = .given ∧ (regexMemorySize pattern.length).isSome = true ∧
        ∃ tree, Spells .alternative pattern tree ∧ (tree.meaning true).isSome = true := by
    intro error position differs same
    exact absurd same.symm differs
  cases isSize : regexMemorySize pattern.length with
  | none =>
    exact .inr ⟨failed .memory 0, by simp only [regexCompileN, isSize], fun ok => by cases ok⟩
  | some size =>
    rw [isSize] at isError
    cases memory with
    | thrown => exact .inl ⟨rfl, rfl, by simp only [regexCompileN, isSize]⟩
    | refused =>
      exact .inr ⟨failed .memory 0, by simp only [regexCompileN, isSize], isError _ _ (by decide)⟩
    | given =>
      right
      cases ended : compileAll (fromStart pattern) with
      | error error =>
        cases error with
        | running => exact absurd (parses.error ended) not_false
        | error error position =>
          refine ⟨failed error position, ?_, isError _ _ (Ne.symm (parses.error ended))⟩
          unfold fromStart at ended
          simp only [regexCompileN, isSize, ended]
      | ok result =>
        let regex : CRegex := ⟨⟨result.2.instructions, result.2.ranges, some result.1⟩,
          ⟨List.replicate (pattern.length * 2 + 2) 0, 1⟩, .ok, 0⟩
        refine ⟨regex, ?_, fun _ => ⟨rfl, rfl, parses.result ended⟩⟩
        unfold fromStart at ended
        simp only [regexCompileN, isSize, ended]
        rfl

theorem regexCompileN_returned (memory : Memory) (pattern : List UInt8) (error : RegexError)
    (ends : ((regexCompileN memory pattern).bind Compiled.returned?).map CRegex.error = some error) :
    ∃ regex, regexCompileN memory pattern = some (.returned regex) ∧ regex.error = error := by
  obtain ⟨regex, compiled, same⟩ := Option.map_eq_some_iff.mp ends
  obtain ⟨outcome, isOutcome, returned⟩ := Option.bind_eq_some_iff.mp compiled
  cases outcome with
  | returned regex' =>
    cases returned
    exact ⟨regex, isOutcome, same⟩
  | thrown regex' => cases returned

theorem regexCompileN_used {β : Type} (memory : Memory) (pattern : List UInt8)
    (use : CRegex → Option (CRegex × β)) (answer : β)
    (ends : (((regexCompileN memory pattern).bind Compiled.returned?).bind fun regex =>
      (use regex).map fun after => (regex.error, after.2)) = some (.ok, answer)) :
    ∃ regex after, regexCompileN memory pattern = some (.returned regex) ∧ regex.error = .ok ∧
      use regex = some (after, answer) := by
  obtain ⟨regex, compiled, used⟩ := Option.bind_eq_some_iff.mp ends
  obtain ⟨⟨after, answer'⟩, isUsed, same⟩ := Option.map_eq_some_iff.mp used
  rw [Prod.mk.injEq] at same
  obtain ⟨ok, rfl⟩ := same
  obtain ⟨regex', isReturned, isError⟩ := regexCompileN_returned memory pattern regex.error
    (by rw [compiled]; rfl)
  have same : regex' = regex := by
    rw [isReturned] at compiled
    exact Option.some.inj compiled
  subst same
  exact ⟨regex', after, isReturned, ok, isUsed⟩

/-! ## Later uses -/

/-- `used` is `regex` after any searches and full matches in any texts. -/
inductive Uses (regex : CRegex) : CRegex → Prop where
  | none : Uses regex regex
  | search (used after : CRegex) (text : List UInt8) (offset : Nat) (best : Option (Nat × Nat))
      (uses : Uses regex used) (searched : regexSearchAtN used text offset = some (after, best)) :
      Uses regex after
  | fullMatch (used after : CRegex) (text : List UInt8) (accepted : Bool)
      (uses : Uses regex used) (matched : regexFullMatchN used text = some (after, accepted)) :
      Uses regex after

theorem regexNextGeneration_valid (ready : Ready program marks) :
    (seenMarks program (regexNextGeneration program marks).generation).valid
      (regexNextGeneration program marks).seen := by
  obtain ⟨size, small⟩ := regexNextGeneration_fresh ready
  exact ⟨size, fun value inSeen => Nat.le_of_lt (small value inSeen)⟩

theorem regexAddStates_ready {generation length : Nat} {roots : List (Thread program)}
    {before after : Found (List Nat) program.State Nat}
    (added : regexAddStates program generation position length roots before = some after)
    (ready : Ready program ⟨before.1, generation⟩) : Ready program ⟨after.1, generation⟩ :=
  visitRoots_valid roots added ready

theorem runLoop_ready {start fuel : Nat} {accepted : Option Nat} {threads : List (Thread program)}
    {result : CMarks × Option Nat}
    (ended : runLoop program text start fuel marks position accepted threads = some result)
    (ready : Ready program marks) : Ready program result.1 := by
  induction fuel generalizing marks position accepted threads with
  | zero => cases ended
  | succ fuel ih =>
    simp only [runLoop] at ended
    generalize (if threads.any (isMatch program) then some position else accepted) = accepted'
      at ended
    split at ended
    next =>
      cases ended
      exact ready
    next =>
      split at ended
      next =>
        cases ended
        exact ready
      next =>
        obtain ⟨found, added, again⟩ := Option.bind_eq_some_iff.mp ended
        exact ih again (regexAddStates_ready added (regexNextGeneration_valid ready))

theorem searchLoop_ready {fuel : Nat} {best : Option (Nat × Nat)} {threads : List (Thread program)}
    {result : CMarks × Option (Nat × Nat)}
    (ended : searchLoop program text fuel marks position best threads = some result)
    (ready : Ready program marks) : Ready program result.1 := by
  induction fuel generalizing marks position best threads with
  | zero => cases ended
  | succ fuel ih =>
    simp only [searchLoop, searchStep] at ended
    generalize threads.foldl (improve program position) best = best' at ended
    split at ended
    next =>
      cases ended
      exact ready
    next =>
      obtain ⟨stepped, added, rest⟩ := Option.bind_eq_some_iff.mp ended
      have isReady : Ready program ⟨stepped.1, (regexNextGeneration program marks).generation⟩ :=
        regexAddStates_ready added (regexNextGeneration_valid ready)
      have goesOn : ∀ found, Ready program ⟨found, (regexNextGeneration program marks).generation⟩ →
          ∀ (stop : Bool) position threads, (if stop then
            some (⟨found, (regexNextGeneration program marks).generation⟩, best')
          else searchLoop program text fuel
            ⟨found, (regexNextGeneration program marks).generation⟩ position best' threads) =
              some result → Ready program result.1 := by
        intro found isReady' stop position threads last
        cases stop with
        | true =>
          cases last
          exact isReady'
        | false => exact ih last isReady'
      split at rest
      next =>
        obtain ⟨found, added', last⟩ := Option.bind_eq_some_iff.mp rest
        exact goesOn found.1 (regexAddStates_ready added' isReady) _ _ _ last
      next => exact goesOn stepped.1 isReady _ _ _ rest

theorem regexSearchAtN_ready {after : CRegex} {best : Option (Nat × Nat)}
    (searched : regexSearchAtN regex text offset = some (after, best))
    (ready : Ready regex.program regex.marks) :
    ∃ marks, after = { regex with marks := marks } ∧ Ready regex.program marks := by
  simp only [regexSearchAtN] at searched
  split at searched
  next =>
    cases searched
    exact ⟨regex.marks, rfl, ready⟩
  next =>
    obtain ⟨found, added, rest⟩ := Option.bind_eq_some_iff.mp searched
    obtain ⟨⟨marks, best⟩, ended, last⟩ := Option.bind_eq_some_iff.mp rest
    cases last
    exact ⟨marks, rfl, searchLoop_ready ended
      (regexAddStates_ready added (regexNextGeneration_valid ready))⟩

theorem regexFullMatchN_ready {after : CRegex} {accepted : Bool}
    (matched : regexFullMatchN regex text = some (after, accepted))
    (ready : Ready regex.program regex.marks) :
    ∃ marks, after = { regex with marks := marks } ∧ Ready regex.program marks := by
  simp only [regexFullMatchN, regexRunAt] at matched
  split at matched
  next =>
    cases matched
    exact ⟨regex.marks, rfl, ready⟩
  next =>
    obtain ⟨⟨marks, accepted⟩, ran, last⟩ := Option.bind_eq_some_iff.mp matched
    obtain ⟨found, added, ended⟩ := Option.bind_eq_some_iff.mp ran
    cases last
    exact ⟨marks, rfl, runLoop_ready ended
      (regexAddStates_ready added (regexNextGeneration_valid ready))⟩

/-- Whatever it is used for, a regex keeps its program and is ready again. -/
theorem Uses.ready {used : CRegex} (uses : Uses regex used)
    (ready : Ready regex.program regex.marks) :
    ∃ marks, used = { regex with marks := marks } ∧ Ready regex.program marks := by
  induction uses with
  | none => exact ⟨regex.marks, rfl, ready⟩
  | search used after text offset best _ searched ih =>
    obtain ⟨marks, rfl, isReady⟩ := ih
    obtain ⟨marks', rfl, isReady'⟩ := regexSearchAtN_ready searched isReady
    exact ⟨marks', rfl, isReady'⟩
  | fullMatch used after text accepted _ matched ih =>
    obtain ⟨marks, rfl, isReady⟩ := ih
    obtain ⟨marks', rfl, isReady'⟩ := regexFullMatchN_ready matched isReady
    exact ⟨marks', rfl, isReady'⟩

/-! ## Searches -/

/-- `result` is the leftmost of the matches at or behind `offset`, and of these
the longest. -/
def LeftmostLongest (expr : Expr) (text : List Char) (offset : Nat) : Option (Nat × Nat) → Prop
  | none => ∀ start stop, offset ≤ start → ¬IsMatch expr text start stop
  | some (first, last) => offset ≤ first ∧ IsMatch expr text first last ∧
      ∀ start stop, offset ≤ start → IsMatch expr text start stop →
        first ≤ start ∧ (start = first → stop ≤ last)

/-- No match begins at or behind `offset` and to the left of `first`. -/
def IsLeftmost (expr : Expr) (text : List Char) (offset first : Nat) : Prop :=
  ∀ start stop, offset ≤ start → IsMatch expr text start stop → first ≤ start

/-- The leftmost start has a match that ends no later than any other match. -/
def LeftmostEndsFirst (expr : Expr) (text : List Char) (offset : Nat) : Prop :=
  ∀ first last, offset ≤ first → IsMatch expr text first last →
    IsLeftmost expr text offset first → ∀ start stop, offset ≤ start →
      IsMatch expr text start stop → ∃ earliest ≤ stop, IsMatch expr text first earliest

theorem isLeftmost_exists {text : List Char} {start stop : Nat} (eligible : offset ≤ start)
    (isMatch : IsMatch expr text start stop) :
    ∃ first last, offset ≤ first ∧ IsMatch expr text first last ∧
      IsLeftmost expr text offset first := by
  induction start using Nat.strong_induction_on generalizing stop with
  | _ start ih =>
    by_cases isLeftmost : IsLeftmost expr text offset start
    · exact ⟨start, stop, eligible, isMatch, isLeftmost⟩
    · simp only [IsLeftmost, not_forall] at isLeftmost
      obtain ⟨other, stop', eligible', isMatch', before⟩ := isLeftmost
      exact ih other (Nat.lt_of_not_le before) eligible' isMatch'

theorem Returns.leftmostLongest_iff {text : List Char} {result : Option (Nat × Nat)}
    (denotes : Denotes program expr) (returns : Returns program text offset result) :
    LeftmostLongest expr text offset result ↔ LeftmostEndsFirst expr text offset := by
  cases result with
  | none =>
    simp only [Returns, denotes.spans] at returns
    constructor
    · intro _ first last eligible isMatch
      exact absurd isMatch (returns first last eligible)
    · intro _
      exact returns
  | some best =>
    obtain ⟨first, last⟩ := best
    simp only [Returns, EndsFirst, Longest, Leftmost, denotes.spans] at returns
    obtain ⟨eligible, ⟨earliest, isEarliest, endsFirst⟩, isMatch, longest⟩ := returns
    constructor
    · rintro ⟨_, _, best⟩ first' last' eligible' isMatch' isLeftmost start stop isEligible other
      have same : first' = first := by
        apply Nat.le_antisymm
        · exact isLeftmost first last eligible isMatch
        · exact (best first' last' eligible' isMatch').1
      subst same
      exact ⟨earliest, (endsFirst start stop isEligible other).1, isEarliest⟩
    · intro leftmostEndsFirst
      obtain ⟨first', last', eligible', isMatch', isLeftmost⟩ := isLeftmost_exists eligible isMatch
      obtain ⟨stop, early, isMatchStop⟩ := leftmostEndsFirst first' last' eligible' isMatch'
        isLeftmost first earliest eligible isEarliest
      have bounds := endsFirst first' stop eligible' isMatchStop
      have isFirst : first ≤ first' := bounds.2 (Nat.le_antisymm early bounds.1)
      have leftmost : ∀ start stop, offset ≤ start → IsMatch expr text start stop →
          first ≤ start := by
        intro start stop isEligible other
        exact Nat.le_trans isFirst (isLeftmost start stop isEligible other)
      refine ⟨eligible, isMatch, fun start stop isEligible other => ?_⟩
      refine ⟨leftmost start stop isEligible other, ?_⟩
      rintro rfl
      exact longest leftmost stop other

/-- `expr` is a meaning of the pattern; see `Pattern.meaning` for the reading. -/
def Means (escapedToo : Bool) (pattern : List UInt8) (expr : Expr) : Prop :=
  ∃ tree : Pattern, Spells .alternative pattern tree ∧ tree.meaning escapedToo = some expr

/-- A program stands for every meaning of its pattern. -/
theorem regexCompileN_denotes (compiled : regexCompileN memory pattern = some (.returned regex))
    (ok : regex.error = .ok) :
    (∃ expr, Means true pattern expr) ∧ Ready regex.program regex.marks ∧
      ∀ expr, Means true pattern expr → Denotes regex.program expr := by
  obtain ⟨-, -, compiled'⟩ | ⟨regex', compiled', sound⟩ := regexCompileN_sound memory pattern
  · rw [compiled] at compiled'
    cases compiled'
  rw [compiled] at compiled'
  cases compiled'
  obtain ⟨rfl, small, tree, spells, isSome⟩ := sound ok
  have complete : ∀ expr, Means true pattern expr →
      Denotes regex.program expr ∧ Ready regex.program regex.marks := by
    rintro expr ⟨tree, spells, meaning⟩
    obtain ⟨regex', compiled', _, denotes, ready⟩ := regexCompileN_complete spells meaning small
    rw [compiled] at compiled'
    cases compiled'
    exact ⟨denotes, ready⟩
  obtain ⟨expr, meaning⟩ := Option.isSome_iff_exists.mp isSome
  have means : Means true pattern expr := ⟨tree, spells, meaning⟩
  exact ⟨⟨expr, means⟩, (complete expr means).2, fun expr means => (complete expr means).1⟩

/-- A search returns the leftmost longest match if and only if the leftmost
start has a match that ends no later than any other match. -/
theorem regexSearchAtN_leftmostLongest (memory : Memory) (pattern : List UInt8)
    (regex used : CRegex) (compiled : regexCompileN memory pattern = some (.returned regex))
    (ok : regex.error = .ok) (uses : Uses regex used) :
    (∃ expr, Means true pattern expr) ∧
    ∀ tree expr, Spells .alternative pattern tree → tree.meaning true = some expr →
      (tree.escapedRange = false → tree.meaning false = some expr) ∧
      ∀ text offset, ∃ after result,
        regexSearchAtN used (encode text) offset = some (after, result) ∧
        (LeftmostLongest expr text offset result ↔ LeftmostEndsFirst expr text offset) := by
  obtain ⟨means, ready, denotes⟩ := regexCompileN_denotes compiled ok
  refine ⟨means, fun tree expr spells meaning => ⟨fun plain => ?_, fun text offset => ?_⟩⟩
  · rw [← meaning_same plain, meaning]
  · obtain ⟨marks, rfl, isReady⟩ := uses.ready ready
    obtain ⟨marks', result, searched, _, returns⟩ :=
      regexSearchAtN_returns { regex with marks := marks } text offset ok isReady
    exact ⟨_, result, searched,
      returns.leftmostLongest_iff (denotes expr ⟨tree, spells, meaning⟩)⟩

/-- The pattern `ab|b`. -/
theorem regexSearchAtN_leftmostLongest_alternation :
    ∃ regex, regexCompileN .given [0x61, 0x62, 0x7C, 0x62] = some (.returned regex) ∧
      regex.error = .ok ∧ ∀ text offset, ∃ after result,
        regexSearchAtN regex (encode text) offset = some (after, result) ∧
        (LeftmostLongest (.alt (.seq (.rune 0x61) (.rune 0x62)) (.rune 0x62)) text offset result ↔
          LeftmostEndsFirst (.alt (.seq (.rune 0x61) (.rune 0x62)) (.rune 0x62)) text offset) := by
  obtain ⟨regex, compiled, ok⟩ := regexCompileN_returned .given [0x61, 0x62, 0x7C, 0x62] .ok
    (by decide +kernel)
  have first := Spells.once _ _ (Spells.literal 'a' (by decide))
  have second := Spells.once _ _ (Spells.literal 'b' (by decide))
  have spells : Spells .alternative [0x61, 0x62, 0x7C, 0x62]
      (.alt (.seq (.rune 0x61) (.rune 0x62)) (.rune 0x62)) := by
    apply Spells.alt [0x61, 0x62] [0x62]
    · exact Spells.single _ _ (Spells.filled _ _
        (Spells.more [0x61] [0x62] _ _ (Spells.one _ _ first) second))
    · exact Spells.filled _ _ (Spells.one _ _ second)
  have best := regexSearchAtN_leftmostLongest .given _ regex regex compiled ok Uses.none
  exact ⟨regex, compiled, ok, (best.2 _ _ spells rfl).2⟩

/-- `abc|b` has a match at 0 in `abc`, but `b` at 1 ends before it. -/
theorem search_misses_leftmost :
    ∃ regex after expr,
      regexCompileN .given [0x61, 0x62, 0x63, 0x7C, 0x62] = some (.returned regex) ∧
      regex.error = .ok ∧ Means false [0x61, 0x62, 0x63, 0x7C, 0x62] expr ∧
      regexSearchAtN regex (encode ['a', 'b', 'c']) 0 = some (after, some (1, 2)) ∧
      ¬LeftmostLongest expr ['a', 'b', 'c'] 0 (some (1, 2)) := by
  obtain ⟨regex, after, compiled, ok, searched⟩ :=
    regexCompileN_used .given [0x61, 0x62, 0x63, 0x7C, 0x62]
      (fun regex => regexSearchAtN regex (encode ['a', 'b', 'c']) 0) (some (1, 2))
      (by decide +kernel)
  have letter : ∀ ch, ch ∈ ['a', 'b', 'c'] → Spells .repeat (String.utf8EncodeChar ch)
      (.rune ch.val.toNat) := by
    intro ch inList
    apply Spells.once _ _ (Spells.literal ch _)
    simp only [List.mem_cons, List.not_mem_nil, or_false] at inList
    rcases inList with rfl | rfl | rfl <;> decide
  have spells : Spells .alternative [0x61, 0x62, 0x63, 0x7C, 0x62]
      (.alt (.seq (.seq (.rune 0x61) (.rune 0x62)) (.rune 0x63)) (.rune 0x62)) := by
    apply Spells.alt [0x61, 0x62, 0x63] [0x62]
    · apply Spells.single _ _ (Spells.filled _ _ _)
      apply Spells.more [0x61, 0x62] [0x63] _ _ _ (letter 'c' (by simp))
      exact Spells.more [0x61] [0x62] _ _ (Spells.one _ _ (letter 'a' (by simp)))
        (letter 'b' (by simp))
    · exact Spells.filled _ _ (Spells.one _ _ (letter 'b' (by simp)))
  refine ⟨regex, after, _, compiled, ok, ⟨_, spells, rfl⟩, searched, ?_⟩
  rintro ⟨_, _, best⟩
  have atStart : IsMatch (.alt (.seq (.seq (.rune 0x61) (.rune 0x62)) (.rune 0x63)) (.rune 0x62))
      ['a', 'b', 'c'] 0 3 := by
    refine ⟨[], ['a', 'b', 'c'], [], rfl, rfl, by decide, ?_⟩
    apply Matches.left
    apply Matches.seq _ _ _ ['a', 'b'] ['c']
    · apply Matches.seq _ _ _ ['a'] ['b']
      · exact Matches.rune _ 'a' _ _ rfl
      · exact Matches.rune _ 'b' _ _ rfl
    · exact Matches.rune _ 'c' _ _ rfl
  exact absurd (best 0 3 (Nat.le_refl 0) atStart).1 (by decide)

/-! ## Full matches -/

def Refused (memory : Memory) (pattern : List UInt8) : Prop :=
  memory = .refused ∨ regexMemorySize pattern.length = none

/-- The escapes of the pattern are documented, and `expr` is its meaning. -/
def Documented (pattern : List UInt8) (expr : Expr) : Prop :=
  documentedEscapes pattern = true ∧ Means false pattern expr

/-- There is no memory for the pattern, it has an error, or a full match accepts the texts of its
documented meaning, whatever the regex was used for before. -/
def AcceptsLanguage (memory : Memory) (pattern : List UInt8) : Prop :=
  memory = .thrown ∧ regexCompileN memory pattern = some (.thrown (failed .ok 0)) ∨
  ∃ regex, regexCompileN memory pattern = some (.returned regex) ∧
    (Refused memory pattern ∧ regex.error = .memory ∨
      regex.error ≠ .ok ∧ (∀ expr, ¬Documented pattern expr) ∨
      regex.error = .ok ∧ (∃ expr, Documented pattern expr) ∧
        ∀ expr, Documented pattern expr → ∀ used, Uses regex used → ∀ text,
          ∃ after accepted, regexFullMatchN used (encode text) = some (after, accepted) ∧
            (accepted = true ↔ Matches expr [] text []))

/-- The pattern has no meaning at all, or a documented one, and an escaped `-` may be read as the
range operator without a difference. -/
def ReadingsAgree (pattern : List UInt8) : Prop :=
  (∀ expr, ¬Means true pattern expr ∧ ¬Documented pattern expr) ∨
  ∃ expr', Means true pattern expr' ∧ (∃ expr, Documented pattern expr) ∧
    ∀ expr, Documented pattern expr → ∀ text,
      Matches expr' [] text [] ↔ Matches expr [] text []

theorem isMatch_whole {text : List Char} :
    IsMatch expr text 0 (encode text).length ↔ Matches expr [] text [] := by
  constructor
  · rintro ⟨before, word, behind, split, atStart, atEnd, isMatch⟩
    have none : before = [] := encode_eq_nil.mp (List.length_eq_zero_iff.mp atStart)
    subst none
    have sizes := congrArg (fun text => (encode text).length) split
    simp only [encode_append, List.length_append, List.nil_append] at sizes atEnd
    have none : behind = [] := encode_eq_nil.mp (List.length_eq_zero_iff.mp (by omega))
    subst none
    rw [split, List.nil_append, List.append_nil]
    exact isMatch
  · intro isMatch
    exact ⟨[], text, [], by simp, rfl, rfl, isMatch⟩

theorem regexFullMatchN_accepts {used : CRegex}
    (compiled : regexCompileN memory pattern = some (.returned regex)) (ok : regex.error = .ok)
    (means : Means true pattern expr) (uses : Uses regex used) (text : List Char) :
    ∃ after accepted, regexFullMatchN used (encode text) = some (after, accepted) ∧
      (accepted = true ↔ Matches expr [] text []) := by
  obtain ⟨_, ready, denotes⟩ := regexCompileN_denotes compiled ok
  obtain ⟨marks, rfl, isReady⟩ := uses.ready ready
  obtain ⟨marks', accepted, matched, _, spans⟩ :=
    regexFullMatchN_spans { regex with marks := marks } text ok isReady
  refine ⟨_, accepted, matched, ?_⟩
  rw [spans, (denotes expr means).spans, isMatch_whole]

theorem regexCompileN_ok (compiled : regexCompileN memory pattern = some (.returned regex))
    (ready : ¬Refused memory pattern) : regex.error = .ok ↔ ∃ expr, Means true pattern expr := by
  constructor
  · intro ok
    exact (regexCompileN_denotes compiled ok).1
  rintro ⟨expr, tree, spells, meaning⟩
  simp only [Refused, not_or] at ready
  obtain ⟨notRefused, small⟩ := ready
  have isGiven : memory = .given := by
    cases memory with
    | given => rfl
    | refused => exact absurd rfl notRefused
    | thrown =>
      obtain ⟨size, isSize⟩ := Option.ne_none_iff_exists'.mp small
      simp [regexCompileN, isSize] at compiled
  subst isGiven
  obtain ⟨regex', compiled', ok, _⟩ :=
    regexCompileN_complete spells meaning (Option.isSome_iff_ne_none.mpr small)
  rw [compiled] at compiled'
  cases compiled'
  exact ok

/-- Full matches accept the language of the pattern if and only if it has only documented escapes and
its two readings agree. -/
theorem regexFullMatchN_language (memory : Memory) (pattern : List UInt8) :
    AcceptsLanguage memory pattern ↔
      memory = .thrown ∨ Refused memory pattern ∨ ReadingsAgree pattern := by
  obtain ⟨isThrown, -, compiled⟩ | ⟨regex, compiled, _⟩ := regexCompileN_sound memory pattern
  · exact iff_of_true (.inl ⟨isThrown, compiled⟩) (.inl isThrown)
  by_cases refused : Refused memory pattern
  · refine iff_of_true (.inr ⟨regex, compiled, Or.inl ⟨refused, ?_⟩⟩) (.inr (.inl refused))
    rcases refused with rfl | tooLarge
    · simp only [regexCompileN] at compiled
      split at compiled <;> cases compiled <;> rfl
    · simp only [regexCompileN, tooLarge] at compiled
      cases compiled
      rfl
  have notThrown : memory ≠ .thrown := by
    rintro rfl
    obtain ⟨size, isSize⟩ := Option.ne_none_iff_exists'.mp fun none => refused (.inr none)
    simp [regexCompileN, isSize] at compiled
  have isOk := regexCompileN_ok compiled refused
  rw [AcceptsLanguage, or_iff_right notThrown, or_iff_right refused,
    or_iff_right fun thrown => notThrown thrown.1]
  constructor
  · rintro ⟨regex', compiled', outcome⟩
    rw [compiled] at compiled'
    cases compiled'
    rcases outcome with ⟨isRefused, _⟩ | ⟨isError, none⟩ | ⟨ok, exists_, accepts⟩
    · exact absurd isRefused refused
    · exact Or.inl fun expr => ⟨fun means => isError (isOk.mpr ⟨expr, means⟩), none expr⟩
    · obtain ⟨expr', means'⟩ := isOk.mp ok
      refine Or.inr ⟨expr', means', exists_, fun expr means text => ?_⟩
      obtain ⟨_, accepted, matched, iff⟩ :=
        regexFullMatchN_accepts compiled ok means' Uses.none text
      obtain ⟨_, accepted', matched', iff'⟩ := accepts expr means regex Uses.none text
      rw [matched] at matched'
      cases matched'
      rw [← iff, ← iff']
  · rintro (none | ⟨expr', means', exists_, same⟩)
    · refine ⟨regex, compiled, Or.inr (Or.inl ⟨fun ok => ?_, fun expr => (none expr).2⟩)⟩
      obtain ⟨expr, means⟩ := isOk.mp ok
      exact (none expr).1 means
    · have ok := isOk.mpr ⟨expr', means'⟩
      refine ⟨regex, compiled, Or.inr (Or.inr ⟨ok, exists_, fun expr means used uses text => ?_⟩)⟩
      obtain ⟨after, accepted, matched, iff⟩ := regexFullMatchN_accepts compiled ok means' uses text
      exact ⟨after, accepted, matched, iff.trans (same expr means text)⟩

/-- `[a\-z]` accepts `m`. -/
theorem escaped_dash_accepts :
    ∃ regex after expr,
      regexCompileN .given [0x5B, 0x61, 0x5C, 0x2D, 0x7A, 0x5D] = some (.returned regex) ∧
      regex.error = .ok ∧ Documented [0x5B, 0x61, 0x5C, 0x2D, 0x7A, 0x5D] expr ∧
      regexFullMatchN regex (encode ['m']) = some (after, true) ∧ ¬Matches expr [] ['m'] [] := by
  obtain ⟨regex, after, compiled, ok, matched⟩ :=
    regexCompileN_used .given [0x5B, 0x61, 0x5C, 0x2D, 0x7A, 0x5D]
      (fun regex => regexFullMatchN regex (encode ['m'])) true (by decide +kernel)
  have items : SpellsItems [0x61, 0x5C, 0x2D, 0x7A]
      [.single 0x61 false, .single 0x2D true, .single 0x7A false] := by
    apply SpellsItems.cons [0x61] [0x5C, 0x2D, 0x7A] _ _ (SpellsItem.plain 'a' (by decide))
    apply SpellsItems.cons [0x5C, 0x2D] [0x7A]
    · exact SpellsItem.escaped [0x2D] 0x2D (Escapes.same '-' (by decide))
    · exact SpellsItems.cons [0x7A] [] _ _ (SpellsItem.plain 'z' (by decide)) SpellsItems.nil
  have spells : Spells .alternative [0x5B, 0x61, 0x5C, 0x2D, 0x7A, 0x5D]
      (.charClass [.single 0x61 false, .single 0x2D true, .single 0x7A false] false) :=
    Spells.single _ _ (Spells.filled _ _ (Spells.one _ _ (Spells.once _ _
      (Spells.charClass _ _ items (by simp) (by decide)))))
  refine ⟨regex, after, .charClass [⟨0x61, 0x61⟩, ⟨0x2D, 0x2D⟩, ⟨0x7A, 0x7A⟩] false, compiled, ok,
    ⟨rfl, _, spells, rfl⟩, matched, ?_⟩
  intro isMatch
  cases isMatch with
  | charClass _ _ _ _ _ inside => simp [inClass, inRanges] at inside

end Aholyc.Regex
