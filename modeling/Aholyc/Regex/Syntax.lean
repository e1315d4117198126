import Aholyc.Regex.Program

/-!
# Expressions and what they match

The syntax of the expressions with the usual meaning, by induction on the
syntax: an expression matches a word between what stands before and behind it
in the text. `Laid` says how an expression is laid out in a program, and the
runs of the program through it are just its matches.
-/

namespace Aholyc.Regex

open Aholyc.Lib.Closure Aholyc.Text

inductive Expr where
  | empty
  | rune (rune : Nat)
  | any
  | charClass (ranges : List CRegexRange) (negate : Bool)
  | bol
  | eol
  | seq (first second : Expr)
  | alt (left right : Expr)
  | star (body : Expr)
  | plus (body : Expr)
  | opt (body : Expr)
  deriving DecidableEq, Repr

def inRanges (ranges : List CRegexRange) (rune : Nat) : Prop :=
  ∃ range ∈ ranges, range.first ≤ rune ∧ rune ≤ range.last

def inClass (ranges : List CRegexRange) (negate : Bool) (rune : Nat) : Prop :=
  if negate then ¬inRanges ranges rune else inRanges ranges rune

/-- `Matches expr before word behind`: in the text `before ++ word ++ behind`
the expression matches `word`. -/
inductive Matches : Expr → List Char → List Char → List Char → Prop where
  | empty (before behind : List Char) : Matches .empty before [] behind
  | rune (rune : Nat) (ch : Char) (before behind : List Char) (same : ch.val.toNat = rune) :
      Matches (.rune rune) before [ch] behind
  | any (ch : Char) (before behind : List Char) : Matches .any before [ch] behind
  | charClass (ranges : List CRegexRange) (negate : Bool) (ch : Char) (before behind : List Char)
      (inside : inClass ranges negate ch.val.toNat) :
      Matches (.charClass ranges negate) before [ch] behind
  | bol (behind : List Char) : Matches .bol [] [] behind
  | eol (before : List Char) : Matches .eol before [] []
  | seq (first second : Expr) (before one two behind : List Char)
      (left : Matches first before one (two ++ behind))
      (right : Matches second (before ++ one) two behind) :
      Matches (.seq first second) before (one ++ two) behind
  | left (left right : Expr) (before word behind : List Char)
      (body : Matches left before word behind) : Matches (.alt left right) before word behind
  | right (left right : Expr) (before word behind : List Char)
      (body : Matches right before word behind) : Matches (.alt left right) before word behind
  | none (body : Expr) (before behind : List Char) : Matches (.star body) before [] behind
  | again (body : Expr) (before one two behind : List Char)
      (left : Matches body before one (two ++ behind))
      (right : Matches (.star body) (before ++ one) two behind) :
      Matches (.star body) before (one ++ two) behind
  | plus (body : Expr) (before one two behind : List Char)
      (left : Matches body before one (two ++ behind))
      (right : Matches (.star body) (before ++ one) two behind) :
      Matches (.plus body) before (one ++ two) behind
  | absent (body : Expr) (before behind : List Char) : Matches (.opt body) before [] behind
  | present (body : Expr) (before word behind : List Char)
      (once : Matches body before word behind) : Matches (.opt body) before word behind

/-! ## Runs of a program -/

/-- A state in the text: what is read and what is left. -/
structure Config (program : CProgram) where
  state : program.State
  before : List Char
  behind : List Char

def free (program : CProgram) (before behind : List Char) : Graph program.State := fun state =>
  let x := (program.state (program.fetch state).x).toList
  let y := (program.state (program.fetch state).y).toList
  match (program.fetch state).op with
  | .split => some (x ++ y)
  | .jump => some x
  | .bol => some (if before = [] then x else [])
  | .eol => some (if behind = [] then x else [])
  | _ => none

inductive Step (program : CProgram) : Config program → Config program → Prop where
  | follow (state next : program.State) (before behind : List Char)
      (edge : (free program before behind).Edge state next) :
      Step program ⟨state, before, behind⟩ ⟨next, before, behind⟩
  | read (state next : program.State) (before behind : List Char) (ch : Char)
      (reads : regexInstructionMatches program (program.fetch state) ch.val.toNat = true)
      (target : program.state (program.fetch state).x = some next) :
      Step program ⟨state, before, ch :: behind⟩ ⟨next, before ++ [ch], behind⟩

inductive Run (program : CProgram) : Nat → Config program → Config program → Prop where
  | stay (config : Config program) : Run program 0 config config
  | step (count : Nat) (config mid last : Config program) (first : Step program config mid)
      (rest : Run program count mid last) : Run program (count + 1) config last

variable {program : CProgram} {index start target : Nat} {instruction : CRegexInstruction}
  {before behind : List Char} {state next : program.State}

theorem Run.append {m n : Nat} {first mid last : Config program} (one : Run program m first mid)
    (two : Run program n mid last) : Run program (m + n) first last := by
  induction one with
  | stay config => rwa [Nat.zero_add]
  | step count config next _ step rest ih =>
    rw [Nat.add_right_comm]
    exact Run.step _ config next last step (ih two)

/-! ## Layout -/

/-- The instruction at `index` has the given operation and first target. -/
def Fetches (program : CProgram) (index : Nat) (instruction : CRegexInstruction) : Prop :=
  program.instructions[index]? = some instruction

/-- `expr` is laid out from `start`, and what follows it starts at `target`. -/
inductive Laid (program : CProgram) : Expr → Nat → Nat → Prop where
  | empty (start target : Nat) (instruction : CRegexInstruction)
      (fetches : Fetches program start instruction) (op : instruction.op = .jump)
      (x : instruction.x = some target) : Laid program .empty start target
  | rune (rune start target : Nat) (instruction : CRegexInstruction)
      (fetches : Fetches program start instruction) (op : instruction.op = .rune)
      (same : instruction.rune = rune) (x : instruction.x = some target) :
      Laid program (.rune rune) start target
  | any (start target : Nat) (instruction : CRegexInstruction)
      (fetches : Fetches program start instruction) (op : instruction.op = .any)
      (x : instruction.x = some target) : Laid program .any start target
  | charClass (ranges : List CRegexRange) (start target : Nat) (instruction : CRegexInstruction)
      (fetches : Fetches program start instruction) (op : instruction.op = .charClass)
      (table : (program.ranges.drop instruction.rangeIndex).take instruction.rangeCount = ranges)
      (x : instruction.x = some target) :
      Laid program (.charClass ranges instruction.negate) start target
  | bol (start target : Nat) (instruction : CRegexInstruction)
      (fetches : Fetches program start instruction) (op : instruction.op = .bol)
      (x : instruction.x = some target) : Laid program .bol start target
  | eol (start target : Nat) (instruction : CRegexInstruction)
      (fetches : Fetches program start instruction) (op : instruction.op = .eol)
      (x : instruction.x = some target) : Laid program .eol start target
  | seq (first second : Expr) (start middle target : Nat) (one : Laid program first start middle)
      (two : Laid program second middle target) : Laid program (.seq first second) start target
  | alt (left right : Expr) (start one two target : Nat) (instruction : CRegexInstruction)
      (fetches : Fetches program start instruction) (op : instruction.op = .split)
      (x : instruction.x = some one) (y : instruction.y = some two)
      (first : Laid program left one target) (second : Laid program right two target) :
      Laid program (.alt left right) start target
  | star (body : Expr) (start one target : Nat) (instruction : CRegexInstruction)
      (fetches : Fetches program start instruction) (op : instruction.op = .split)
      (x : instruction.x = some one) (y : instruction.y = some target)
      (inner : Laid program body one start) : Laid program (.star body) start target
  | plus (body : Expr) (start split target : Nat) (instruction : CRegexInstruction)
      (fetches : Fetches program split instruction) (op : instruction.op = .split)
      (x : instruction.x = some start) (y : instruction.y = some target)
      (inner : Laid program body start split) : Laid program (.plus body) start target
  | opt (body : Expr) (start one target : Nat) (instruction : CRegexInstruction)
      (fetches : Fetches program start instruction) (op : instruction.op = .split)
      (x : instruction.x = some one) (y : instruction.y = some target)
      (inner : Laid program body one target) : Laid program (.opt body) start target

theorem Fetches.lt (fetches : Fetches program index instruction) : index < program.count :=
  (List.getElem?_eq_some_iff.mp fetches).1

theorem Fetches.fetch (fetches : Fetches program index instruction) (state : program.State)
    (same : index = state := by rfl) : program.fetch state = instruction := by
  subst same
  exact (List.getElem?_eq_some_iff.mp fetches).2

variable {expr : Expr}

theorem Laid.start_lt (laid : Laid program expr start target) : start < program.count := by
  induction laid with
  | empty _ _ _ fetches => exact fetches.lt
  | rune _ _ _ _ fetches => exact fetches.lt
  | any _ _ _ fetches => exact fetches.lt
  | charClass _ _ _ _ fetches => exact fetches.lt
  | bol _ _ _ fetches => exact fetches.lt
  | eol _ _ _ fetches => exact fetches.lt
  | seq _ _ _ _ _ _ _ ih _ => exact ih
  | alt _ _ _ _ _ _ _ fetches => exact fetches.lt
  | star _ _ _ _ _ fetches => exact fetches.lt
  | plus _ _ _ _ _ _ _ _ _ _ ih => exact ih
  | opt _ _ _ _ _ fetches => exact fetches.lt

theorem state_of_lt (inside : index < program.count) :
    program.state (some index) = some ⟨index, inside⟩ := by
  simp [CProgram.state, inside]

/-! ## Every match is a run -/

theorem edge_of_free {successors : List program.State}
    (isFree : free program before behind state = some successors) (inNext : next ∈ successors) :
    (free program before behind).Edge state next :=
  ⟨successors, isFree, inNext⟩

theorem step_jump (op : (program.fetch state).op = .jump)
    (target : program.state (program.fetch state).x = some next) :
    Step program ⟨state, before, behind⟩ ⟨next, before, behind⟩ := by
  apply Step.follow state next before behind
  apply edge_of_free (show _ = some [next] by simp [free, op, target])
  simp

theorem step_split (op : (program.fetch state).op = .split)
    (target : program.state (program.fetch state).x = some next ∨
      program.state (program.fetch state).y = some next) :
    Step program ⟨state, before, behind⟩ ⟨next, before, behind⟩ := by
  apply Step.follow state next before behind
  apply edge_of_free (show _ = some _ by simp only [free, op]; rfl)
  rw [List.mem_append, Option.mem_toList, Option.mem_toList]
  exact target

theorem class_matches {rune : Nat} (op : instruction.op = .charClass) :
    regexInstructionMatches program instruction rune = true ↔
      inClass ((program.ranges.drop instruction.rangeIndex).take instruction.rangeCount)
        instruction.negate rune := by
  have found : ((program.ranges.drop instruction.rangeIndex).take instruction.rangeCount).any
      (fun range => decide (range.first ≤ rune) && decide (rune ≤ range.last)) = true ↔
      inRanges ((program.ranges.drop instruction.rangeIndex).take instruction.rangeCount) rune := by
    simp [inRanges, List.any_eq_true]
  simp only [regexInstructionMatches, op, inClass]
  split
  · rw [Bool.not_eq_true', ← Bool.not_eq_true, found]
  · exact found

theorem run_one {config last : Config program} (step : Step program config last) :
    Run program 1 config last :=
  Run.step 0 config last last step (Run.stay last)

theorem matches_run {word : List Char} (isMatch : Matches expr before word behind)
    (laid : Laid program expr start target) (inside : start < program.count)
    (inside' : target < program.count) :
    ∃ count, Run program count ⟨⟨start, inside⟩, before, word ++ behind⟩
      ⟨⟨target, inside'⟩, before ++ word, behind⟩ := by
  induction isMatch generalizing start target with
  | empty before behind =>
    cases laid with
    | empty _ _ instruction fetches op x =>
      have fetched := fetches.fetch ⟨start, inside⟩
      refine ⟨1, run_one ?_⟩
      rw [List.append_nil]
      apply step_jump
      · rw [fetched, op]
      · rw [fetched, x, state_of_lt]
  | rune rune ch before behind same =>
    cases laid with
    | rune _ _ _ instruction fetches op isRune x =>
      have fetched := fetches.fetch ⟨start, inside⟩
      refine ⟨1, run_one (Step.read _ _ before behind ch ?_ ?_)⟩
      · rw [fetched]
        simp [regexInstructionMatches, op, isRune, same]
      · rw [fetched, x, state_of_lt]
  | any ch before behind =>
    cases laid with
    | any _ _ instruction fetches op x =>
      have fetched := fetches.fetch ⟨start, inside⟩
      refine ⟨1, run_one (Step.read _ _ before behind ch ?_ ?_)⟩
      · rw [fetched]
        simp [regexInstructionMatches, op]
      · rw [fetched, x, state_of_lt]
  | charClass ranges negate ch before behind isIn =>
    cases laid with
    | charClass _ _ _ instruction fetches op table x =>
      have fetched := fetches.fetch ⟨start, inside⟩
      refine ⟨1, run_one (Step.read _ _ before behind ch ?_ ?_)⟩
      · rw [fetched, class_matches op, table]
        exact isIn
      · rw [fetched, x, state_of_lt]
  | bol behind =>
    cases laid with
    | bol _ _ instruction fetches op x =>
      have fetched := fetches.fetch ⟨start, inside⟩
      refine ⟨1, run_one ?_⟩
      apply Step.follow
      apply edge_of_free (show _ = some [⟨target, inside'⟩] by
        simp [free, fetched, op, x, state_of_lt inside'])
      simp
  | eol before =>
    cases laid with
    | eol _ _ instruction fetches op x =>
      have fetched := fetches.fetch ⟨start, inside⟩
      refine ⟨1, run_one ?_⟩
      simp only [List.append_nil]
      apply Step.follow
      apply edge_of_free (show _ = some [⟨target, inside'⟩] by
        simp [free, fetched, op, x, state_of_lt inside'])
      simp
  | seq first second before one two behind left right ihLeft ihRight =>
    cases laid with
    | seq _ _ _ middle _ laidOne laidTwo =>
      obtain ⟨m, runOne⟩ := ihLeft laidOne inside laidTwo.start_lt
      obtain ⟨n, runTwo⟩ := ihRight laidTwo laidTwo.start_lt inside'
      rw [List.append_assoc]
      rw [List.append_assoc] at runTwo
      exact ⟨m + n, runOne.append runTwo⟩
  | left left right before word behind body ih =>
    cases laid with
    | alt _ _ _ one two _ instruction fetches op x y first second =>
      have fetched := fetches.fetch ⟨start, inside⟩
      obtain ⟨n, run⟩ := ih first first.start_lt inside'
      refine ⟨n + 1, Run.step n _ _ _ (step_split ?_ (Or.inl ?_)) run⟩
      · rw [fetched, op]
      · rw [fetched, x, state_of_lt]
  | right left right before word behind body ih =>
    cases laid with
    | alt _ _ _ one two _ instruction fetches op x y first second =>
      have fetched := fetches.fetch ⟨start, inside⟩
      obtain ⟨n, run⟩ := ih second second.start_lt inside'
      refine ⟨n + 1, Run.step n _ _ _ (step_split ?_ (Or.inr ?_)) run⟩
      · rw [fetched, op]
      · rw [fetched, y, state_of_lt]
  | none body before behind =>
    cases laid with
    | star _ _ one _ instruction fetches op x y inner =>
      have fetched := fetches.fetch ⟨start, inside⟩
      refine ⟨1, run_one ?_⟩
      rw [List.append_nil]
      apply step_split
      · rw [fetched, op]
      · exact Or.inr (by rw [fetched, y, state_of_lt])
  | again body before one two behind left right ihLeft ihRight =>
    have laidStar := laid
    cases laid with
    | star _ _ first _ instruction fetches op x y inner =>
      have fetched := fetches.fetch ⟨start, inside⟩
      obtain ⟨m, runOne⟩ := ihLeft inner inner.start_lt inside
      obtain ⟨n, runTwo⟩ := ihRight laidStar inside inside'
      rw [List.append_assoc]
      rw [List.append_assoc] at runTwo
      refine ⟨m + n + 1, Run.step _ _ _ _ (step_split ?_ (Or.inl ?_)) (runOne.append runTwo)⟩
      · rw [fetched, op]
      · rw [fetched, x, state_of_lt]
  | plus body before one two behind left right ihLeft ihRight =>
    cases laid with
    | plus _ _ split _ instruction fetches op x y inner =>
      obtain ⟨m, runOne⟩ := ihLeft inner inside fetches.lt
      have laidStar : Laid program (.star body) split target :=
        Laid.star body split start target instruction fetches op x y inner
      obtain ⟨n, runTwo⟩ := ihRight laidStar fetches.lt inside'
      rw [List.append_assoc]
      rw [List.append_assoc] at runTwo
      exact ⟨m + n, runOne.append runTwo⟩
  | absent body before behind =>
    cases laid with
    | opt _ _ one _ instruction fetches op x y inner =>
      have fetched := fetches.fetch ⟨start, inside⟩
      refine ⟨1, run_one ?_⟩
      rw [List.append_nil]
      apply step_split
      · rw [fetched, op]
      · exact Or.inr (by rw [fetched, y, state_of_lt])
  | present body before word behind once ih =>
    cases laid with
    | opt _ _ one _ instruction fetches op x y inner =>
      have fetched := fetches.fetch ⟨start, inside⟩
      obtain ⟨n, run⟩ := ih inner inner.start_lt inside'
      refine ⟨n + 1, Run.step n _ _ _ (step_split ?_ (Or.inl ?_)) run⟩
      · rw [fetched, op]
      · rw [fetched, x, state_of_lt]

/-! ## Every accepting run is a match -/

def Accepts (program : CProgram) (config : Config program) : Prop :=
  (program.fetch config.state).op = .matched

theorem run_first {count : Nat} {config last : Config program} (run : Run program count config last)
    (accepts : Accepts program last) (more : (program.fetch config.state).op ≠ .matched) :
    ∃ fewer mid, count = fewer + 1 ∧ Step program config mid ∧ Run program fewer mid last := by
  cases run with
  | stay => exact absurd accepts more
  | step fewer _ mid _ first rest => exact ⟨fewer, mid, rfl, first, rest⟩

theorem step_edge {mid : Config program} {successors : List program.State}
    (step : Step program ⟨state, before, behind⟩ mid)
    (isFree : free program before behind state = some successors)
    (silent : ∀ rune, regexInstructionMatches program (program.fetch state) rune = false) :
    ∃ next ∈ successors, mid = ⟨next, before, behind⟩ := by
  cases step with
  | follow _ next _ _ edge =>
    obtain ⟨others, isOthers, inOthers⟩ := edge
    rw [isFree] at isOthers
    cases isOthers
    exact ⟨next, inOthers, rfl⟩
  | read _ next _ rest ch reads _ =>
    rw [silent] at reads
    cases reads

theorem step_read {mid : Config program} (step : Step program ⟨state, before, behind⟩ mid)
    (waits : free program before behind state = none) :
    ∃ ch rest next, behind = ch :: rest ∧ mid = ⟨next, before ++ [ch], rest⟩ ∧
      regexInstructionMatches program (program.fetch state) ch.val.toNat = true ∧
      program.state (program.fetch state).x = some next := by
  cases step with
  | follow _ next _ _ edge =>
    obtain ⟨others, isOthers, _⟩ := edge
    rw [waits] at isOthers
    cases isOthers
  | read _ next _ rest ch reads target => exact ⟨ch, rest, next, rfl, rfl, reads, target⟩

theorem state_some (resolved : program.state (some index) = some next) :
    ∃ inside : index < program.count, next = ⟨index, inside⟩ := by
  simp only [CProgram.state, Option.bind_some] at resolved
  split at resolved
  next inside =>
    cases resolved
    exact ⟨inside, rfl⟩
  next => cases resolved

/-- An accepting run through the layout of `expr` reads a match of it and goes
on at the target. -/
def Passes (program : CProgram) (expr : Expr) (start target : Nat) : Prop :=
  ∀ count before text (last : Config program) (inside : start < program.count),
    Accepts program last → Run program count ⟨⟨start, inside⟩, before, text⟩ last →
    ∃ word behind fewer, ∃ inside' : target < program.count, text = word ++ behind ∧
      Matches expr before word behind ∧ fewer < count ∧
      Run program fewer ⟨⟨target, inside'⟩, before ++ word, behind⟩ last

theorem passes_read (fetches : Fetches program start instruction) (x : instruction.x = some target)
    (waits : ∀ before behind (inside : start < program.count),
      free program before behind ⟨start, inside⟩ = none) (more : instruction.op ≠ .matched)
    (meaning : ∀ before behind ch,
      regexInstructionMatches program instruction ch.val.toNat = true →
      Matches expr before [ch] behind) : Passes program expr start target := by
  intro count before text last inside accepts run
  have fetched := fetches.fetch ⟨start, inside⟩
  obtain ⟨fewer, mid, rfl, first, rest⟩ := run_first run accepts (by rw [fetched]; exact more)
  obtain ⟨ch, behind, next, rfl, rfl, reads, resolved⟩ := step_read first (waits before text inside)
  rw [fetched] at reads resolved
  rw [x] at resolved
  obtain ⟨inside', rfl⟩ := state_some resolved
  exact ⟨[ch], behind, fewer, inside', rfl, meaning before behind ch reads, Nat.lt_succ_self _, rest⟩

theorem split_first {one two : Nat} (fetches : Fetches program start instruction)
    (op : instruction.op = .split) (x : instruction.x = some one) (y : instruction.y = some two)
    {count : Nat} {text : List Char} {last : Config program} (inside : start < program.count)
    (accepts : Accepts program last) (run : Run program count ⟨⟨start, inside⟩, before, text⟩ last) :
    ∃ fewer index, ∃ inside' : index < program.count, count = fewer + 1 ∧
      (index = one ∨ index = two) ∧ Run program fewer ⟨⟨index, inside'⟩, before, text⟩ last := by
  have fetched := fetches.fetch ⟨start, inside⟩
  obtain ⟨fewer, mid, rfl, first, rest⟩ := run_first run accepts (by rw [fetched, op]; simp)
  obtain ⟨next, inNext, rfl⟩ := step_edge first
    (show _ = some ((program.state (some one)).toList ++ (program.state (some two)).toList) by
      simp only [free, fetched, op, x, y])
    (fun rune => by simp [regexInstructionMatches, fetched, op])
  rw [List.mem_append, Option.mem_toList, Option.mem_toList] at inNext
  cases inNext with
  | inl first =>
    obtain ⟨inside', rfl⟩ := state_some first
    exact ⟨fewer, one, inside', rfl, Or.inl rfl, rest⟩
  | inr second =>
    obtain ⟨inside', rfl⟩ := state_some second
    exact ⟨fewer, two, inside', rfl, Or.inr rfl, rest⟩

theorem passes_star {body : Expr} {one : Nat} (fetches : Fetches program start instruction)
    (op : instruction.op = .split) (x : instruction.x = some one) (y : instruction.y = some target)
    (inner : Passes program body one start) : Passes program (.star body) start target := by
  intro count
  induction count using Nat.strong_induction_on with
  | _ count ih =>
    intro before text last inside accepts run
    obtain ⟨fewer, index, inside', rfl, side, rest⟩ :=
      split_first fetches op x y inside accepts run
    cases side with
    | inr isTarget =>
      subst isTarget
      refine ⟨[], text, fewer, inside', rfl, Matches.none body before text,
        Nat.lt_succ_self fewer, ?_⟩
      rwa [List.append_nil]
    | inl isBody =>
      subst isBody
      obtain ⟨word, behind, less, back, rfl, isMatch, lt, again⟩ :=
        inner fewer before text last inside' accepts rest
      obtain ⟨more, behind', least, atTarget, rfl, isStar, lt', done⟩ :=
        ih less (by omega) (before ++ word) behind last back accepts again
      refine ⟨word ++ more, behind', least, atTarget, by simp,
        Matches.again body before word more behind' isMatch isStar, by omega, ?_⟩
      rwa [← List.append_assoc]

/-- A test of the position: nothing is read, and the run goes on if it holds. -/
theorem passes_anchor (holds : List Char → List Char → Prop)
    [∀ before behind, Decidable (holds before behind)] (fetches : Fetches program start instruction)
    (x : instruction.x = some target) (isFree : ∀ before behind (inside : start < program.count),
      free program before behind ⟨start, inside⟩ =
        some (if holds before behind then (program.state instruction.x).toList else []))
    (more : instruction.op ≠ .matched)
    (silent : ∀ rune, regexInstructionMatches program instruction rune = false)
    (meaning : ∀ before behind, holds before behind → Matches expr before [] behind) :
    Passes program expr start target := by
  intro count before text last inside accepts run
  have fetched := fetches.fetch ⟨start, inside⟩
  obtain ⟨fewer, mid, rfl, first, rest⟩ := run_first run accepts (by rw [fetched]; exact more)
  obtain ⟨next, inNext, rfl⟩ := step_edge first (isFree before text inside)
    (fun rune => by rw [fetched]; exact silent rune)
  split at inNext
  next true_ =>
    rw [x, Option.mem_toList] at inNext
    obtain ⟨inside', rfl⟩ := state_some inNext
    refine ⟨[], text, fewer, inside', rfl, meaning before text true_, Nat.lt_succ_self _, ?_⟩
    rwa [List.append_nil]
  next => cases inNext

theorem laid_passes (laid : Laid program expr start target) : Passes program expr start target := by
  induction laid with
  | empty start target instruction fetches op x =>
    apply passes_anchor (fun _ _ => True) fetches x
    · intro before behind inside
      simp [free, fetches.fetch ⟨start, inside⟩, op]
    · rw [op]
      simp
    · intro rune
      simp [regexInstructionMatches, op]
    · intro before behind _
      exact Matches.empty before behind
  | rune rune start target instruction fetches op same x =>
    apply passes_read fetches x
    · intro before behind inside
      simp only [free, fetches.fetch ⟨start, inside⟩, op]
    · rw [op]
      simp
    · intro before behind ch reads
      simp only [regexInstructionMatches, op, decide_eq_true_eq] at reads
      exact Matches.rune rune ch before behind (by rw [← reads, same])
  | any start target instruction fetches op x =>
    apply passes_read fetches x
    · intro before behind inside
      simp only [free, fetches.fetch ⟨start, inside⟩, op]
    · rw [op]
      simp
    · intro before behind ch reads
      exact Matches.any ch before behind
  | charClass ranges start target instruction fetches op table x =>
    apply passes_read fetches x
    · intro before behind inside
      simp only [free, fetches.fetch ⟨start, inside⟩, op]
    · rw [op]
      simp
    · intro before behind ch reads
      rw [class_matches op, table] at reads
      exact Matches.charClass ranges instruction.negate ch before behind reads
  | bol start target instruction fetches op x =>
    apply passes_anchor (fun before _ => before = []) fetches x
    · intro before behind inside
      simp only [free, fetches.fetch ⟨start, inside⟩, op]
    · rw [op]
      simp
    · intro rune
      simp [regexInstructionMatches, op]
    · rintro before behind rfl
      exact Matches.bol behind
  | eol start target instruction fetches op x =>
    apply passes_anchor (fun _ behind => behind = []) fetches x
    · intro before behind inside
      simp only [free, fetches.fetch ⟨start, inside⟩, op]
    · rw [op]
      simp
    · intro rune
      simp [regexInstructionMatches, op]
    · rintro before behind rfl
      exact Matches.eol before
  | seq first second start middle target one two ihOne ihTwo =>
    intro count before text last inside accepts run
    obtain ⟨word, behind, fewer, inside', rfl, isFirst, lt, rest⟩ :=
      ihOne count before text last inside accepts run
    obtain ⟨more, behind', less, atTarget, rfl, isSecond, lt', done⟩ :=
      ihTwo fewer (before ++ word) behind last inside' accepts rest
    refine ⟨word ++ more, behind', less, atTarget, by simp,
      Matches.seq first second before word more behind' isFirst isSecond, by omega, ?_⟩
    rwa [← List.append_assoc]
  | alt left right start one two target instruction fetches op x y first second ihFirst ihSecond =>
    intro count before text last inside accepts run
    obtain ⟨fewer, index, inside', rfl, side, rest⟩ :=
      split_first fetches op x y inside accepts run
    cases side with
    | inl isLeft =>
      subst isLeft
      obtain ⟨word, behind, less, atTarget, rfl, isMatch, lt, done⟩ :=
        ihFirst fewer before text last inside' accepts rest
      exact ⟨word, behind, less, atTarget, rfl,
        Matches.left left right before word behind isMatch, by omega, done⟩
    | inr isRight =>
      subst isRight
      obtain ⟨word, behind, less, atTarget, rfl, isMatch, lt, done⟩ :=
        ihSecond fewer before text last inside' accepts rest
      exact ⟨word, behind, less, atTarget, rfl,
        Matches.right left right before word behind isMatch, by omega, done⟩
  | star body start one target instruction fetches op x y inner ih =>
    exact passes_star fetches op x y ih
  | plus body start split target instruction fetches op x y inner ih =>
    intro count before text last inside accepts run
    obtain ⟨word, behind, fewer, inside', rfl, isMatch, lt, rest⟩ :=
      ih count before text last inside accepts run
    obtain ⟨more, behind', less, atTarget, rfl, isStar, lt', done⟩ :=
      passes_star fetches op x y ih fewer (before ++ word) behind last inside' accepts rest
    refine ⟨word ++ more, behind', less, atTarget, by simp,
      Matches.plus body before word more behind' isMatch isStar, by omega, ?_⟩
    rwa [← List.append_assoc]
  | opt body start one target instruction fetches op x y inner ih =>
    intro count before text last inside accepts run
    obtain ⟨fewer, index, inside', rfl, side, rest⟩ :=
      split_first fetches op x y inside accepts run
    cases side with
    | inr isTarget =>
      subst isTarget
      refine ⟨[], text, fewer, inside', rfl, Matches.absent body before text,
        Nat.lt_succ_self fewer, ?_⟩
      rwa [List.append_nil]
    | inl isBody =>
      subst isBody
      obtain ⟨word, behind, less, atTarget, rfl, isMatch, lt, done⟩ :=
        ih fewer before text last inside' accepts rest
      exact ⟨word, behind, less, atTarget, rfl,
        Matches.present body before word behind isMatch, by omega, done⟩

end Aholyc.Regex
