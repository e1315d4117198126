import Aholyc.Regex.Syntax

/-!
# The threads of a search

A thread is a run of the program from its origin to an instruction that waits
for a code point. `Arrives` says which threads there are at a place in the text.
`Holds` and `Kept` say which of them a list of threads stands for, and a step
of the loops goes from one list to the next.
-/

namespace Aholyc.Regex

open Aholyc.Lib.Closure Aholyc.Text

/-- The places in bytes and the places in code points. -/
theorem follows_free (program : CProgram) (before behind : List Char) :
    follows program (encode before).length (encode (before ++ behind)).length =
      free program before behind := by
  funext state
  have atStart : (encode before).length = 0 ↔ before = [] := by
    rw [List.length_eq_zero_iff, encode_eq_nil]
  have atEnd : (encode before).length = (encode (before ++ behind)).length ↔ behind = [] := by
    rw [encode_append, List.length_append, Nat.left_eq_add, List.length_eq_zero_iff, encode_eq_nil]
  cases op : (program.fetch state).op with
  | bol =>
    simp only [follows, free, op]
    exact congrArg some (if_congr atStart rfl rfl)
  | eol =>
    simp only [follows, free, op]
    exact congrArg some (if_congr atEnd rfl rfl)
  | _ => simp only [follows, free, op]

/-! ## Runs by code points -/

variable {program : CProgram} {before behind : List Char} {s x : program.State} {rune origin : Nat}
  {ch : Char} {eligible : Nat → Prop}

theorem run_of_reach (reach : (free program before behind).Reach s x) :
    ∃ count, Run program count ⟨s, before, behind⟩ ⟨x, before, behind⟩ := by
  induction reach with
  | refl => exact ⟨0, Run.stay _⟩
  | tail _ edge ih =>
    obtain ⟨count, run⟩ := ih
    exact ⟨count + 1, run.append (run_one (Step.follow _ _ before behind edge))⟩

theorem Run.word {count : Nat} {first last : Config program} (run : Run program count first last) :
    ∃ word, last.before = first.before ++ word ∧ first.behind = word ++ last.behind := by
  induction run with
  | stay config => exact ⟨[], (List.append_nil _).symm, rfl⟩
  | step count config mid last step rest ih =>
    obtain ⟨word, isBefore, isBehind⟩ := ih
    cases step with
    | follow => exact ⟨word, isBefore, isBehind⟩
    | read state next before behind ch =>
      refine ⟨ch :: word, ?_, ?_⟩
      · rw [isBefore, List.append_assoc, List.singleton_append]
      · rw [List.cons_append]
        exact congrArg (ch :: ·) isBehind

theorem run_last {count : Nat} {first last : Config program} (run : Run program count first last) :
    (first.before = last.before ∧ first.behind = last.behind ∧
      (free program last.before last.behind).Reach first.state last.state) ∨
    ∃ fewer state before ch next, last.before = before ++ [ch] ∧
      Run program fewer first ⟨state, before, ch :: last.behind⟩ ∧
      regexInstructionMatches program (program.fetch state) ch.val.toNat = true ∧
      program.state (program.fetch state).x = some next ∧
      (free program last.before last.behind).Reach next last.state := by
  induction run with
  | stay config => exact Or.inl ⟨rfl, rfl, Relation.ReflTransGen.refl⟩
  | step count config mid last step rest ih =>
    rcases ih with ⟨sameBefore, sameBehind, reach⟩ |
      ⟨fewer, state, before, ch, next, split, run, reads, target, reach⟩
    · cases step with
      | follow state next before behind edge =>
        refine Or.inl ⟨sameBefore, sameBehind, Relation.ReflTransGen.head ?_ reach⟩
        simp only at sameBefore sameBehind
        rw [← sameBefore, ← sameBehind]
        exact edge
      | read state next before behind ch reads target =>
        simp only at sameBefore sameBehind
        refine Or.inr ⟨0, state, before, ch, next, sameBefore.symm, ?_, reads, target, reach⟩
        rw [← sameBehind]
        exact Run.stay _
    · exact Or.inr ⟨fewer + 1, state, before, ch, next, split,
        Run.step fewer _ mid _ step run, reads, target, reach⟩

theorem waits_of_reads {state : program.State}
    (reads : regexInstructionMatches program (program.fetch state) rune = true)
    (before behind : List Char) : free program before behind state = none := by
  cases op : (program.fetch state).op with
  | rune => simp only [free, op]
  | any => simp only [free, op]
  | charClass => simp only [free, op]
  | split => simp [regexInstructionMatches, op] at reads
  | jump => simp [regexInstructionMatches, op] at reads
  | bol => simp [regexInstructionMatches, op] at reads
  | eol => simp [regexInstructionMatches, op] at reads
  | matched => simp [regexInstructionMatches, op] at reads

/-! ## Arrivals -/

/-- A run from the start of the program, begun at byte `origin`, is at `state`
after `before`. -/
def Arrives (program : CProgram) (before behind : List Char) (origin : Nat)
    (state : program.State) : Prop :=
  ∃ skipped word count start, before = skipped ++ word ∧ (encode skipped).length = origin ∧
    program.state program.start = some start ∧
    Run program count ⟨start, skipped, word ++ behind⟩ ⟨state, before, behind⟩

theorem Arrives.start {start : program.State} (isStart : program.state program.start = some start)
    (before behind : List Char) : Arrives program before behind (encode before).length start :=
  ⟨before, [], 0, start, (List.append_nil before).symm, rfl, isStart, Run.stay _⟩

theorem Arrives.reach (arrives : Arrives program before behind origin s)
    (reach : (free program before behind).Reach s x) : Arrives program before behind origin x := by
  obtain ⟨skipped, word, count, start, split, size, isStart, run⟩ := arrives
  obtain ⟨more, rest⟩ := run_of_reach reach
  exact ⟨skipped, word, count + more, start, split, size, isStart, run.append rest⟩

theorem Arrives.read {next : program.State}
    (arrives : Arrives program before (ch :: behind) origin s)
    (reads : regexInstructionMatches program (program.fetch s) ch.val.toNat = true)
    (target : program.state (program.fetch s).x = some next) :
    Arrives program (before ++ [ch]) behind origin next := by
  obtain ⟨skipped, word, count, start, split, size, isStart, run⟩ := arrives
  refine ⟨skipped, word ++ [ch], count + 1, start, by rw [split, List.append_assoc], size,
    isStart, ?_⟩
  rw [List.append_assoc, List.singleton_append]
  exact run.append (run_one (Step.read s next before behind ch reads target))

theorem Arrives.origin_le (arrives : Arrives program before behind origin x) :
    origin ≤ (encode before).length := by
  obtain ⟨skipped, word, _, _, rfl, rfl, _, _⟩ := arrives
  rw [encode_append, List.length_append]
  exact Nat.le_add_right _ _

theorem Arrives.here (arrives : Arrives program before behind (encode before).length x) :
    ∃ start, program.state program.start = some start ∧
      (free program before behind).Reach start x := by
  obtain ⟨skipped, word, count, start, split, size, isStart, run⟩ := arrives
  have same : skipped = before := by
    apply encode_prefix_inj _ size
    · exact word
    · exact []
    · rw [split, List.append_nil]
  subst same
  have none : word = [] := List.self_eq_append_right.mp split
  subst none
  refine ⟨start, isStart, ?_⟩
  rcases run_last run with ⟨_, _, reach⟩ | ⟨fewer, y, front, ch, next, ends, run, _⟩
  · exact reach
  · obtain ⟨more, _, isBehind⟩ := run.word
    have sizes := congrArg List.length isBehind
    simp only [List.nil_append, List.length_append, List.length_cons] at sizes
    omega

/-- How a thread got behind a code point: it began there, or it read it. -/
theorem Arrives.last (arrives : Arrives program (before ++ [ch]) behind origin x) :
    (origin = (encode (before ++ [ch])).length ∧ ∃ start,
      program.state program.start = some start ∧
      (free program (before ++ [ch]) behind).Reach start x) ∨
    ∃ y next, Arrives program before (ch :: behind) origin y ∧
      regexInstructionMatches program (program.fetch y) ch.val.toNat = true ∧
      program.state (program.fetch y).x = some next ∧
      (free program (before ++ [ch]) behind).Reach next x := by
  obtain ⟨skipped, word, count, start, split, size, isStart, run⟩ := arrives
  rcases run_last run with ⟨sameBefore, _, reach⟩ |
    ⟨fewer, y, front, other, next, ends, run, reads, target, reach⟩
  · simp only at sameBefore
    left
    refine ⟨?_, start, isStart, reach⟩
    rw [← size, sameBefore]
  · simp only at ends
    right
    obtain ⟨rfl, same⟩ := List.append_inj' ends rfl
    cases same
    obtain ⟨more, isBefore, isBehind⟩ := run.word
    exact ⟨y, next, ⟨skipped, more, fewer, start, isBefore, size, isStart,
      by rw [← isBehind]; exact run⟩, reads, target, reach⟩

/-! ## The marks -/

def Ready (program : CProgram) (marks : CMarks) : Prop :=
  program.count ≤ marks.seen.length ∧
    ∀ value ∈ marks.seen.take program.count, value ≤ marks.generation

theorem regexNextGeneration_fresh {marks : CMarks} (ready : Ready program marks) :
    program.count ≤ (regexNextGeneration program marks).seen.length ∧
    ∀ value ∈ (regexNextGeneration program marks).seen.take program.count,
      value < (regexNextGeneration program marks).generation := by
  obtain ⟨size, small⟩ := ready
  unfold regexNextGeneration
  split
  next =>
    simp only [List.length_append, List.length_replicate, List.length_drop]
    refine ⟨Nat.le_add_right _ _, ?_⟩
    intro value inSeen
    rw [List.take_left' List.length_replicate] at inSeen
    rw [(List.mem_replicate.mp inSeen).2]
    exact Nat.zero_lt_one
  next =>
    refine ⟨size, ?_⟩
    intro value inSeen
    exact Nat.lt_succ_of_le (small value inSeen)

theorem not_seen {seen : List Nat} {generation : Nat} (size : program.count ≤ seen.length)
    (small : ∀ value ∈ seen.take program.count, value < generation) (state : program.State) :
    (seenMarks program generation).has seen state = false := by
  have inside : (state : Nat) < seen.length := Nat.lt_of_lt_of_le state.isLt size
  have inTake : seen[(state : Nat)] ∈ seen.take program.count := by
    rw [List.mem_take_iff_getElem]
    exact ⟨state, by omega, rfl⟩
  have lt := small _ inTake
  simp only [seenMarks, decide_eq_false_iff_not, List.getD_eq_getElem?_getD,
    List.getElem?_eq_getElem inside, Option.getD_some]
  omega

theorem regexAddStates_listed {marks : CMarks} (ready : Ready program marks)
    (before behind : List Char) (roots : List (Thread program))
    (sorted : roots.Pairwise fun a b => a.2 ≤ b.2) :
    ∃ found, regexAddStates program (regexNextGeneration program marks).generation
        (encode before).length (encode (before ++ behind)).length roots
        ((regexNextGeneration program marks).seen, []) = some found ∧
      Ready program ⟨found.1, (regexNextGeneration program marks).generation⟩ ∧
      Listed (free program before behind) roots found.2 := by
  obtain ⟨size, small⟩ := regexNextGeneration_fresh ready
  generalize regexNextGeneration program marks = next at size small ⊢
  have valid : (seenMarks program next.generation).valid next.seen :=
    ⟨size, fun value inSeen => Nat.le_of_lt (small value inSeen)⟩
  simp only [regexAddStates, follows_free]
  obtain ⟨found, ended⟩ : ∃ found, visitRoots (free program before behind)
      (seenMarks program next.generation) (program.count + 1) roots (next.seen, []) =
        some found := by
    apply visitRoots_some (List.finRange program.count)
    · intro s _ successors _ x _
      exact List.mem_finRange x
    · intro r _
      exact List.mem_finRange r.1
    · exact valid
    · rw [List.length_finRange]
      exact Nat.lt_succ_self _
  obtain ⟨validAfter, listed⟩ := visitRoots_listed roots ended valid (not_seen size small) sorted
  exact ⟨found, ended, validAfter, listed⟩

/-! ## Lists of threads -/

/-- `threads` has the earliest eligible origin for every state there is a
thread at. -/
structure Covers (program : CProgram) (eligible : Nat → Prop) (before behind : List Char)
    (threads : List (Thread program)) : Prop where
  sound : ∀ x origin, (x, origin) ∈ threads → free program before behind x = none ∧
    eligible origin ∧ Arrives program before behind origin x
  least : ∀ x origin, eligible origin → Arrives program before behind origin x →
    free program before behind x = none → ∃ origin' ≤ origin, (x, origin') ∈ threads
  sorted : threads.Pairwise fun a b => a.2 ≤ b.2

theorem mem_matching {keep : Nat → Bool} {threads : List (Thread program)} {next : program.State} :
    (next, origin) ∈ matching program rune keep threads ↔ ∃ x, (x, origin) ∈ threads ∧
      keep origin = true ∧ regexInstructionMatches program (program.fetch x) rune = true ∧
      program.state (program.fetch x).x = some next := by
  simp only [matching, List.mem_filterMap]
  constructor
  · rintro ⟨⟨x, found⟩, inThreads, stepped⟩
    split at stepped
    next kept =>
      obtain ⟨target, isTarget, same⟩ := Option.map_eq_some_iff.mp stepped
      cases same
      rw [Bool.and_eq_true] at kept
      exact ⟨x, inThreads, kept.1, kept.2, isTarget⟩
    next => cases stepped
  · rintro ⟨x, inThreads, kept, reads, target⟩
    refine ⟨(x, origin), inThreads, ?_⟩
    rw [if_pos (by rw [kept, reads]; rfl), target]
    rfl

theorem matching_sorted {keep : Nat → Bool} {threads : List (Thread program)}
    (sorted : threads.Pairwise fun a b => a.2 ≤ b.2) :
    (matching program rune keep threads).Pairwise fun a b => a.2 ≤ b.2 := by
  apply List.Pairwise.filterMap _ _ sorted
  intro a b le c fromA d fromB
  split at fromA
  next =>
    split at fromB
    next =>
      obtain ⟨_, _, rfl⟩ := Option.map_eq_some_iff.mp fromA
      obtain ⟨_, _, rfl⟩ := Option.map_eq_some_iff.mp fromB
      exact le
    next => cases fromB
  next => cases fromA

/-- The roots that begin at a place, if threads may begin there. -/
theorem Covers.begin {out : List (Thread program)} (isEligible : eligible (encode before).length)
    (only : ∀ origin, eligible origin → origin ≤ (encode before).length →
      origin = (encode before).length) (listed : Listed (free program before behind)
      ((program.state program.start).toList.map (·, (encode before).length)) out) :
    Covers program eligible before behind out where
  sound := by
    intro x origin inOut
    obtain ⟨leaf, s, inRoots, reach⟩ := listed.sound x origin inOut
    obtain ⟨start, isStart, same⟩ := List.mem_map.mp inRoots
    cases same
    rw [Option.mem_toList] at isStart
    exact ⟨leaf, isEligible, (Arrives.start isStart before behind).reach reach⟩
  least := by
    intro x origin eligible arrives leaf
    have same := only origin eligible arrives.origin_le
    subst same
    obtain ⟨start, isStart, reach⟩ := arrives.here
    apply listed.least start x (encode before).length _ reach leaf
    rw [isStart]
    exact List.mem_singleton_self _
  sorted := listed.sorted

theorem roots_sorted {threads : List (Thread program)}
    (covers : Covers program eligible before (ch :: behind) threads) (keep : Nat → Bool)
    (starts : List (Thread program))
    (begins : ∀ root ∈ starts, root.2 = (encode (before ++ [ch])).length)
    (single : starts.length ≤ 1) :
    (matching program ch.val.toNat keep threads ++ starts).Pairwise fun a b => a.2 ≤ b.2 := by
  rw [List.pairwise_append]
  refine ⟨matching_sorted covers.sorted, ?_, ?_⟩
  · match starts, single with
    | [], _ => exact List.Pairwise.nil
    | [root], _ => exact List.pairwise_singleton _ root
  · intro a inMatching b inStarts
    obtain ⟨x, inThreads, _⟩ := mem_matching.mp inMatching
    have le := (covers.sound x a.2 inThreads).2.2.origin_le
    rw [begins b inStarts, encode_append, List.length_append]
    omega

/-- One code point for all threads, and a new thread if one may begin. -/
theorem Covers.step {threads starts out : List (Thread program)}
    (covers : Covers program eligible before (ch :: behind) threads)
    (begins : ∀ s origin, (s, origin) ∈ starts ↔ program.state program.start = some s ∧
      eligible origin ∧ origin = (encode (before ++ [ch])).length)
    (listed : Listed (free program (before ++ [ch]) behind)
      (matching program ch.val.toNat (fun _ => true) threads ++ starts) out) :
    Covers program eligible (before ++ [ch]) behind out where
  sound := by
    intro x origin inOut
    obtain ⟨leaf, s, inRoots, reach⟩ := listed.sound x origin inOut
    refine ⟨leaf, ?_⟩
    cases List.mem_append.mp inRoots with
    | inl inMatching =>
      obtain ⟨y, inThreads, _, reads, target⟩ := mem_matching.mp inMatching
      obtain ⟨_, isEligible, arrives⟩ := covers.sound y origin inThreads
      exact ⟨isEligible, (arrives.read reads target).reach reach⟩
    | inr inStarts =>
      obtain ⟨isStart, isEligible, rfl⟩ := (begins s origin).mp inStarts
      exact ⟨isEligible, (Arrives.start isStart _ behind).reach reach⟩
  least := by
    intro x origin isEligible arrives leaf
    rcases arrives.last with ⟨isHere, start, isStart, reach⟩ | ⟨y, next, old, reads, target, reach⟩
    · exact listed.least start x origin
        (List.mem_append_right _ ((begins start origin).mpr ⟨isStart, isEligible, isHere⟩)) reach leaf
    · obtain ⟨earlier, le, inThreads⟩ := covers.least y origin isEligible old
        (waits_of_reads reads before (ch :: behind))
      have inRoots : (next, earlier) ∈ matching program ch.val.toNat (fun _ => true) threads :=
        mem_matching.mpr ⟨y, inThreads, rfl, reads, target⟩
      obtain ⟨least, le', inOut⟩ := listed.least next x earlier
        (List.mem_append_left _ inRoots) reach leaf
      exact ⟨least, Nat.le_trans le' le, inOut⟩
  sorted := listed.sorted

/-! ## Matches of the program -/

/-- A match of the program: from byte `start` to byte `stop` of the text. -/
def Spans (program : CProgram) (text : List Char) (start stop : Nat) : Prop :=
  ∃ before behind x, text = before ++ behind ∧ (encode before).length = stop ∧
    Arrives program before behind start x ∧ (program.fetch x).op = .matched

def Hopeful (program : CProgram) (before behind : List Char) (x : program.State) : Prop :=
  ∃ count last, Run program count ⟨x, before, behind⟩ last ∧ Accepts program last

/-- A thread that is behind `before ++ word` was at a state behind `before`. -/
theorem Arrives.through {word : List Char}
    (arrives : Arrives program (before ++ word) behind origin x)
    (begun : origin ≤ (encode before).length) (some_ : word ≠ []) :
    ∃ y count, Arrives program before (word ++ behind) origin y ∧
      free program before (word ++ behind) y = none ∧
      Run program count ⟨y, before, word ++ behind⟩ ⟨x, before ++ word, behind⟩ := by
  induction word using List.reverseRecOn generalizing behind x with
  | nil => exact absurd rfl some_
  | append_singleton word ch ih =>
    rw [← List.append_assoc] at arrives
    rcases arrives.last with ⟨isHere, _⟩ | ⟨y, next, old, reads, target, reach⟩
    · rw [encode_append, encode_append, List.length_append, List.length_append, encode_cons,
        List.length_append] at isHere
      have positive := List.length_pos_of_ne_nil (String.utf8EncodeChar_ne_nil (c := ch))
      omega
    · obtain ⟨count, run⟩ := run_of_reach reach
      have rest : Run program (count + 1) ⟨y, before ++ word, ch :: behind⟩
          ⟨x, before ++ word ++ [ch], behind⟩ :=
        Run.step count _ _ _ (Step.read y next (before ++ word) behind ch reads target) run
      rw [List.append_assoc, List.singleton_append, ← List.append_assoc]
      cases word with
      | nil =>
        rw [List.append_nil] at old rest ⊢
        exact ⟨y, count + 1, old, waits_of_reads reads _ _, rest⟩
      | cons first others =>
        obtain ⟨z, more, arrived, leaf, front⟩ := ih old (List.cons_ne_nil first others)
        exact ⟨z, more + (count + 1), arrived, leaf, front.append rest⟩

theorem isMatch_leaf (op : (program.fetch x).op = .matched) (before behind : List Char) :
    free program before behind x = none := by
  simp only [free, op]

end Aholyc.Regex
