import Aholyc.Regex.Search

/-!
# The match a search returns

Up to the first end of a match the threads are those of all starts. From there
on only the threads of one start are kept: the least one among the matches that
end there.
-/

namespace Aholyc.Regex

open Aholyc.Lib.Closure Aholyc.Text

/-! ## Updates of the best match -/

variable {program : CProgram} {position first stop start offset : Nat} {best : Option (Nat × Nat)}
  {before behind : List Char}

theorem improve_miss {thread : Thread program} (missed : isMatch program thread = false) :
    improve program position best thread = best := by
  simp [improve, missed]

theorem improve_first {origin : Nat} {threads : List (Thread program)}
    (later : ∀ thread ∈ threads, origin ≤ thread.2) :
    threads.foldl (improve program position) (some (origin, position)) =
      some (origin, position) := by
  induction threads with
  | nil => rfl
  | cons thread rest ih =>
    have le := later thread (by simp)
    rw [List.foldl_cons]
    have same : improve program position (some (origin, position)) thread =
        some (origin, position) := by
      simp only [improve]
      split
      · rw [if_neg]
        simp only [gt_iff_lt, lt_self_iff_false, decide_false, Bool.and_false, Bool.or_false,
          decide_eq_true_eq]
        omega
      · rfl
    rw [same]
    exact ih fun other inRest => later other (by simp [inRest])

theorem improve_none {threads : List (Thread program)}
    (missed : ¬threads.any (isMatch program) = true) :
    threads.foldl (improve program position) best = best := by
  induction threads with
  | nil => rfl
  | cons thread rest ih =>
    rw [List.any_cons, Bool.or_eq_true, not_or, Bool.not_eq_true] at missed
    rw [List.foldl_cons, improve_miss missed.1]
    exact ih missed.2

/-- With sorted threads the first match has the least origin. -/
theorem improve_some (position : Nat) {threads : List (Thread program)}
    (sorted : threads.Pairwise fun a b => a.2 ≤ b.2) (found : threads.any (isMatch program) = true) :
    ∃ x origin, (x, origin) ∈ threads ∧ (program.fetch x).op = .matched ∧
      threads.foldl (improve program position) none = some (origin, position) ∧
      ∀ y other, (y, other) ∈ threads → (program.fetch y).op = .matched → origin ≤ other := by
  induction threads with
  | nil => cases found
  | cons thread rest ih =>
    obtain ⟨below, sortedRest⟩ := List.pairwise_cons.mp sorted
    rw [List.foldl_cons]
    cases isFirst : isMatch program thread with
    | true =>
      refine ⟨thread.1, thread.2, by simp, by simpa [isMatch] using isFirst, ?_, ?_⟩
      · rw [improve, if_pos isFirst]
        exact improve_first below
      · intro y other inThreads _
        cases inThreads with
        | head => exact Nat.le_refl _
        | tail _ inRest => exact below (y, other) inRest
    | false =>
      rw [List.any_cons, isFirst, Bool.false_or] at found
      obtain ⟨x, origin, inRest, op, folded, least⟩ := ih sortedRest found
      refine ⟨x, origin, List.mem_cons_of_mem thread inRest, op, ?_, ?_⟩
      · rw [improve_miss isFirst]
        exact folded
      · intro y other inThreads isOp
        cases inThreads with
        | head => simp [isMatch, isOp] at isFirst
        | tail _ inRest => exact least y other inRest isOp

theorem improve_longer {threads : List (Thread program)}
    (only : ∀ thread ∈ threads, thread.2 = first) (le : stop ≤ position) :
    threads.foldl (improve program position) (some (first, stop)) =
      some (first, if threads.any (isMatch program) then position else stop) := by
  induction threads with
  | nil => rfl
  | cons thread rest ih =>
    have isOnly := only thread (by simp)
    have onlyRest : ∀ other ∈ rest, other.2 = first := fun other inRest =>
      only other (by simp [inRest])
    rw [List.foldl_cons, List.any_cons]
    cases isFirst : isMatch program thread with
    | false =>
      rw [improve_miss isFirst, Bool.false_or]
      exact ih onlyRest
    | true =>
      have longer : improve program position (some (first, stop)) thread =
          some (first, position) := by
        simp only [improve, isFirst, if_true, isOnly]
        split
        · rfl
        next same =>
          simp only [lt_self_iff_false, decide_false, decide_true, Bool.true_and,
            Bool.false_or, gt_iff_lt, decide_eq_true_eq] at same
          rw [Nat.le_antisymm le (Nat.le_of_not_lt same)]
      rw [longer, Bool.true_or, if_pos rfl]
      exact improve_first fun other inRest => Nat.le_of_eq (onlyRest other inRest).symm

/-! ## Matches that end later -/

/-- The end of a match that is not before a place is behind some word there. -/
theorem prefix_of_le {front rest : List Char} (split : before ++ behind = front ++ rest)
    (le : (encode before).length ≤ (encode front).length) :
    ∃ word, front = before ++ word ∧ behind = word ++ rest := by
  rcases List.append_eq_append_iff.mp split with ⟨word, isFront, isBehind⟩ | ⟨word, isBefore, isRest⟩
  · exact ⟨word, isFront, isBehind⟩
  rw [isBefore, encode_append, List.length_append] at le
  have none : word = [] := by
    rw [← encode_eq_nil, ← List.length_eq_zero_iff]
    omega
  subst none
  refine ⟨[], ?_, ?_⟩
  · rw [isBefore, List.append_nil, List.append_nil]
  · rw [isRest, List.nil_append, List.nil_append]

theorem Spans.pending (spans : Spans program (before ++ behind) start stop)
    (begun : start ≤ (encode before).length) (ends : (encode before).length ≤ stop) :
    ∃ x, Arrives program before behind start x ∧ free program before behind x = none ∧
      Hopeful program before behind x := by
  obtain ⟨front, rest, x, split, rfl, arrives, op⟩ := spans
  obtain ⟨word, rfl, rfl⟩ := prefix_of_le split ends
  cases word with
  | nil =>
    rw [List.append_nil] at arrives
    exact ⟨x, arrives, isMatch_leaf op _ _, 0, _, Run.stay _, op⟩
  | cons ch word =>
    obtain ⟨y, count, old, leaf, run⟩ := arrives.through begun (List.cons_ne_nil ch word)
    exact ⟨y, old, leaf, count, _, run, op⟩

theorem Spans.beyond {ch : Char} (spans : Spans program (before ++ ch :: behind) start stop)
    (later : (encode before).length < stop) : (encode (before ++ [ch])).length ≤ stop := by
  obtain ⟨front, rest, _, split, rfl, _, _⟩ := spans
  obtain ⟨word, rfl, isBehind⟩ := prefix_of_le split (Nat.le_of_lt later)
  cases word with
  | nil => simp at later
  | cons other word =>
    rw [List.cons_append] at isBehind
    obtain ⟨rfl, _⟩ := List.cons.inj isBehind
    rw [snoc_cons before word ch, encode_append (before ++ [ch]) word, List.length_append]
    exact Nat.le_add_right _ _

theorem Spans.arrives {origin count : Nat} {x : program.State} {last : Config program}
    (arrives : Arrives program before behind origin x)
    (run : Run program count ⟨x, before, behind⟩ last) (accepts : Accepts program last) :
    ∃ stop, (encode before).length ≤ stop ∧ Spans program (before ++ behind) origin stop := by
  obtain ⟨word, isBefore, isBehind⟩ := run.word
  obtain ⟨state, front, rest⟩ := last
  simp only at isBefore isBehind
  subst isBefore isBehind
  refine ⟨(encode (before ++ word)).length, ?_, ?_⟩
  · rw [encode_append, List.length_append]
    exact Nat.le_add_right _ _
  · refine ⟨before ++ word, rest, state, (List.append_assoc _ _ _).symm, rfl, ?_, accepts⟩
    obtain ⟨skipped, more, fewer, start, split, size, isStart, front⟩ := arrives
    refine ⟨skipped, more ++ word, fewer + count, start, ?_, size, isStart, ?_⟩
    · rw [split, List.append_assoc]
    · rw [List.append_assoc]
      exact front.append run

/-! ## The threads of one start -/

/-- Among the threads are those that began at `first`; if no match begins
earlier, none that still leads to a match is missing. -/
structure Kept (program : CProgram) (first : Nat) (leftmost : Prop) (before behind : List Char)
    (threads : List (Thread program)) : Prop where
  begun : first ≤ (encode before).length
  sound : ∀ x, (x, first) ∈ threads → Arrives program before behind first x
  complete : leftmost → ∀ x, Arrives program before behind first x →
    free program before behind x = none → Hopeful program before behind x → (x, first) ∈ threads

theorem Covers.kept {threads : List (Thread program)}
    (covers : Covers program (offset ≤ ·) before behind threads) (from_ : offset ≤ first)
    (begun : first ≤ (encode before).length) :
    Kept program first
      (∀ start stop, offset ≤ start → Spans program (before ++ behind) start stop → first ≤ start)
      before behind threads where
  begun := begun
  sound x inThreads := (covers.sound x first inThreads).2.2
  complete := by
    intro leftmost x arrives leaf hopeful
    obtain ⟨origin, le, inThreads⟩ := covers.least x first from_ arrives leaf
    obtain ⟨_, eligible, earlier⟩ := covers.sound x origin inThreads
    obtain ⟨count, last, run, accepts⟩ := hopeful
    obtain ⟨stop, _, spans⟩ := Spans.arrives earlier run accepts
    have same := Nat.le_antisymm le (leftmost origin stop eligible spans)
    rwa [same] at inThreads

theorem Kept.step {leftmost : Prop} {ch : Char} {threads out : List (Thread program)}
    (kept : Kept program first leftmost before (ch :: behind) threads)
    (listed : Listed (free program (before ++ [ch]) behind)
      (matching program ch.val.toNat (fun origin => origin = first) threads) out) :
    Kept program first leftmost (before ++ [ch]) behind out ∧ ∀ thread ∈ out, thread.2 = first := by
  have only : ∀ x origin, (x, origin) ∈ out → origin = first := by
    intro x origin inOut
    obtain ⟨_, s, inRoots, _⟩ := listed.sound x origin inOut
    obtain ⟨_, _, same, _⟩ := mem_matching.mp inRoots
    exact of_decide_eq_true same
  have begun := kept.begun
  refine ⟨⟨?_, ?_, ?_⟩, fun thread inOut => only thread.1 thread.2 inOut⟩
  · rw [encode_snoc]
    omega
  · intro x inOut
    obtain ⟨_, s, inRoots, reach⟩ := listed.sound x first inOut
    obtain ⟨y, inThreads, _, reads, target⟩ := mem_matching.mp inRoots
    exact ((kept.sound y inThreads).read reads target).reach reach
  · intro isLeftmost x arrives leaf hopeful
    rcases arrives.last with ⟨isHere, _⟩ | ⟨y, next, old, reads, target, reach⟩
    · rw [encode_snoc] at isHere
      have positive := List.length_pos_of_ne_nil (String.utf8EncodeChar_ne_nil (c := ch))
      omega
    obtain ⟨count, last, run, accepts⟩ := hopeful
    obtain ⟨more, front⟩ := run_of_reach reach
    have hopefulBefore : Hopeful program before (ch :: behind) y :=
      ⟨_, last, Run.step _ _ _ _ (Step.read y next before behind ch reads target)
        (front.append run), accepts⟩
    have inThreads := kept.complete isLeftmost y old (waits_of_reads reads _ _) hopefulBefore
    have inRoots : (next, first) ∈
        matching program ch.val.toNat (fun origin => origin = first) threads :=
      mem_matching.mpr ⟨y, inThreads, decide_eq_true rfl, reads, target⟩
    obtain ⟨least, _, inOut⟩ := listed.least next x first inRoots reach leaf
    rwa [only x least inOut] at inOut

/-- `stop` is the end of the longest match from `first` among those that end in
front of `limit`. -/
def LongestTo (program : CProgram) (text : List Char) (leftmost : Prop) (first limit stop : Nat) :
    Prop :=
  leftmost → ∀ other, other < limit → Spans program text first other → other ≤ stop

def Longest (program : CProgram) (text : List Char) (leftmost : Prop) (first stop : Nat) : Prop :=
  Spans program text first stop ∧
    (leftmost → ∀ other, Spans program text first other → other ≤ stop)

theorem Kept.ended {leftmost : Prop} (kept : Kept program first leftmost before behind [])
    (found : Spans program (before ++ behind) first stop)
    (longest : LongestTo program (before ++ behind) leftmost first (encode before).length stop) :
    Longest program (before ++ behind) leftmost first stop := by
  refine ⟨found, ?_⟩
  intro isLeftmost other spans
  by_cases early : other < (encode before).length
  · exact longest isLeftmost other early spans
  · obtain ⟨x, arrives, leaf, hopeful⟩ := spans.pending kept.begun (Nat.le_of_not_lt early)
    cases kept.complete isLeftmost x arrives leaf hopeful

/-- A round behind the first match: `again` goes on from the next place. -/
theorem searchStep_kept {leftmost : Prop} {threads : List (Thread program)} {marks : CMarks}
    {again : CMarks → Nat → Option (Nat × Nat) → List (Thread program) →
      Option (CMarks × Option (Nat × Nat))} (ready : Ready program marks)
    (kept : Kept program first leftmost before behind threads)
    (found : Spans program (before ++ behind) first stop)
    (longest : LongestTo program (before ++ behind) leftmost first
      ((encode before).length + 1) stop)
    (goOn : ∀ ch rest marks threads, behind = ch :: rest → Ready program marks →
      Kept program first leftmost (before ++ [ch]) rest threads →
      (∀ thread ∈ threads, thread.2 = first) →
      ∃ marks' stop', again marks (encode (before ++ [ch])).length (some (first, stop)) threads =
        some (marks', some (first, stop')) ∧ Ready program marks' ∧
        Longest program (before ++ behind) leftmost first stop') :
    ∃ marks' stop', searchStep program (encode (before ++ behind)) again marks
        (encode before).length (some (first, stop)) threads = some (marks', some (first, stop')) ∧
      Ready program marks' ∧ Longest program (before ++ behind) leftmost first stop' := by
  have longestHere : LongestTo program (before ++ behind) leftmost first (encode before).length
      stop := fun isLeftmost other lt spans => longest isLeftmost other (by omega) spans
  simp only [searchStep, Option.isSome_some, Bool.true_and]
  split
  next ends =>
    refine ⟨marks, stop, rfl, ready, ?_⟩
    rw [Bool.or_eq_true, decide_eq_true_eq, List.isEmpty_iff] at ends
    cases ends with
    | inr empty =>
      subst empty
      exact kept.ended found longestHere
    | inl past =>
      refine ⟨found, fun isLeftmost other spans => longest isLeftmost other ?_ spans⟩
      obtain ⟨front, rest, _, split, rfl, _, _⟩ := spans
      have size := congrArg (fun text => (encode text).length) split
      simp only [encode_append, List.length_append] at size past
      omega
  next more =>
    rw [Bool.or_eq_true, decide_eq_true_eq, not_or] at more
    cases behind with
    | nil => simp at more
    | cons ch rest =>
      rw [encode_drop, utf8DecodeRune_encode]
      simp only [Option.map_some, Option.getD_some, Option.isNone_some, Bool.false_and,
        Bool.false_eq_true, if_false, Option.all_some]
      rw [← encode_snoc, snoc_cons before rest ch]
      have sorted : (matching program ch.val.toNat (fun origin => origin = first)
          threads).Pairwise fun a b => a.2 ≤ b.2 := by
        apply List.pairwise_of_forall_mem_list
        intro a inA b inB
        obtain ⟨_, _, isFirst, _⟩ := mem_matching.mp inA
        obtain ⟨_, _, isFirst', _⟩ := mem_matching.mp inB
        rw [of_decide_eq_true isFirst, of_decide_eq_true isFirst']
      obtain ⟨after, added, readyAfter, listed⟩ := regexAddStates_listed ready (before ++ [ch])
        rest _ sorted
      rw [added]
      obtain ⟨keptAfter, only⟩ := kept.step listed
      simp only [Option.bind_eq_bind, Option.bind_some]
      split
      next empty =>
        rw [List.isEmpty_iff] at empty
        rw [empty] at keptAfter
        refine ⟨_, stop, rfl, readyAfter, ?_⟩
        rw [snoc_cons before rest ch] at found longest
        apply keptAfter.ended found
        intro isLeftmost other lt spans
        apply longest isLeftmost other _ spans
        rw [← snoc_cons] at spans
        by_contra later
        have beyond := spans.beyond (by omega)
        omega
      next =>
        rw [← snoc_cons before rest ch]
        exact goOn ch rest _ after.2 rfl readyAfter keptAfter only

theorem searchLoop_kept (fuel : Nat) (marks : CMarks) {leftmost : Prop} (before behind : List Char)
    (threads : List (Thread program)) (enough : behind.length < fuel) (ready : Ready program marks)
    (kept : Kept program first leftmost before behind threads)
    (only : ∀ thread ∈ threads, thread.2 = first)
    (found : Spans program (before ++ behind) first stop) (le : stop ≤ (encode before).length)
    (longest : LongestTo program (before ++ behind) leftmost first (encode before).length stop) :
    ∃ marks' stop', searchLoop program (encode (before ++ behind)) fuel marks
        (encode before).length (some (first, stop)) threads = some (marks', some (first, stop')) ∧
      Ready program marks' ∧ Longest program (before ++ behind) leftmost first stop' := by
  induction fuel generalizing marks before behind threads stop with
  | zero => omega
  | succ fuel ih =>
    rw [searchLoop, improve_longer only le]
    have isStop : ∃ stop', (if threads.any (isMatch program) then (encode before).length
          else stop) = stop' ∧ stop' ≤ (encode before).length ∧
        Spans program (before ++ behind) first stop' ∧
        LongestTo program (before ++ behind) leftmost first ((encode before).length + 1) stop' := by
      by_cases found' : threads.any (isMatch program) = true
      · rw [if_pos found']
        refine ⟨_, rfl, Nat.le_refl _, ?_, fun _ other lt _ => Nat.le_of_lt_succ lt⟩
        obtain ⟨x, origin, inThreads, op⟩ := any_isMatch.mp found'
        have same := only _ inThreads
        simp only at same
        subst same
        exact Spans.of_thread (kept.sound x inThreads) op
      · rw [if_neg found']
        refine ⟨stop, rfl, le, found, ?_⟩
        intro isLeftmost other lt spans
        by_cases same : other = (encode before).length
        · subst same
          obtain ⟨x, arrives, op⟩ := spans.here
          have inThreads := kept.complete isLeftmost x arrives (isMatch_leaf op _ _)
            ⟨0, _, Run.stay _, op⟩
          exact absurd (any_isMatch.mpr ⟨x, first, inThreads, op⟩) found'
        · exact longest isLeftmost other (by omega) spans
    obtain ⟨stop', same, le', found', longest'⟩ := isStop
    rw [same]
    apply searchStep_kept ready kept found' longest'
    intro ch rest marks' threads' split ready' kept' only'
    subst split
    rw [snoc_cons before rest ch] at found' longest' ⊢
    apply ih marks' (before ++ [ch]) rest threads' (by simpa using enough) ready' kept' only' found'
    · rw [encode_snoc]
      omega
    · intro isLeftmost other lt spans
      apply longest' isLeftmost other _ spans
      rw [← snoc_cons] at spans
      by_contra later
      have beyond := spans.beyond (by omega)
      omega

/-! ## Boundaries -/

theorem boundary_shift (ch : Char) (text : List Char) (position : Nat) :
    regexUtf8Boundary (encode (ch :: text)) ((String.utf8EncodeChar ch).length + position) =
      regexUtf8Boundary (encode text) position := by
  have positive := List.length_pos_of_ne_nil (String.utf8EncodeChar_ne_nil (c := ch))
  have sameByte : (encode (ch :: text)).getD ((String.utf8EncodeChar ch).length + position) 0 =
      (encode text).getD position 0 := by
    rw [List.getD_eq_getElem?_getD, List.getD_eq_getElem?_getD, encode_cons,
      List.getElem?_append_right (Nat.le_add_right _ _), Nat.add_sub_cancel_left]
  simp only [regexUtf8Boundary, sameByte]
  simp only [encode_cons, List.length_append, ge_iff_le, Nat.add_le_add_iff_left]
  by_cases atStart : position = 0
  · subst atStart
    cases text with
    | nil => simp
    | cons other text =>
      obtain ⟨first, rest, isEncode, isHead, _⟩ := encode_continues other
      simp only [encode_cons, isEncode, List.cons_append, List.getD_cons_zero, decide_true,
        Bool.true_or, Bool.or_eq_true, decide_eq_true_eq, UInt8.lt_iff_toNat_lt, gt_iff_lt,
        UInt8.reduceToNat]
      omega
  · rw [decide_eq_false atStart, decide_eq_false (by omega)]

/-- The boundaries are the places between the code points. -/
theorem regexUtf8Boundary_iff (text : List Char) (position : Nat)
    (inside : position ≤ (encode text).length) :
    regexUtf8Boundary (encode text) position = true ↔
      ∃ before behind, text = before ++ behind ∧ (encode before).length = position := by
  induction text generalizing position with
  | nil =>
    rw [encode_nil, List.length_nil, Nat.le_zero] at inside
    subst inside
    exact ⟨fun _ => ⟨[], [], rfl, rfl⟩, fun _ => rfl⟩
  | cons ch text ih =>
    obtain ⟨first, rest, isEncode, isHead, isTail⟩ := encode_continues ch
    by_cases atStart : position = 0
    · subst atStart
      exact ⟨fun _ => ⟨[], ch :: text, rfl, rfl⟩, fun _ => rfl⟩
    by_cases within : position < (String.utf8EncodeChar ch).length
    · have later : ¬∃ before behind, ch :: text = before ++ behind ∧
          (encode before).length = position := by
        rintro ⟨before, behind, split, size⟩
        cases before with
        | nil => exact atStart size.symm
        | cons other before =>
          obtain ⟨rfl, _⟩ := List.cons.inj split
          rw [encode_cons, List.length_append] at size
          omega
      rw [iff_false_right later, Bool.not_eq_true]
      have isRest : (encode (ch :: text)).getD position 0 ∈ rest := by
        obtain ⟨index, rfl⟩ := Nat.exists_eq_succ_of_ne_zero atStart
        rw [isEncode, List.length_cons] at within
        rw [List.getD_eq_getElem?_getD, encode_cons, isEncode, List.cons_append,
          List.getElem?_cons_succ, List.getElem?_append_left (by omega),
          List.getElem?_eq_getElem (by omega), Option.getD_some]
        exact List.getElem_mem _
      have isByte := isTail _ isRest
      rw [encode_cons, List.length_append] at inside
      simp only [regexUtf8Boundary, Bool.or_eq_false_iff, decide_eq_false_iff_not,
        UInt8.lt_iff_toNat_lt, gt_iff_lt, UInt8.reduceToNat, ge_iff_le, encode_cons,
        List.length_append]
      rw [encode_cons] at isByte
      omega
    · obtain ⟨less, rfl⟩ := Nat.exists_eq_add_of_le (Nat.le_of_not_lt within)
      rw [encode_cons, List.length_append] at inside
      rw [boundary_shift, ih less (by omega)]
      constructor
      · rintro ⟨before, behind, rfl, rfl⟩
        exact ⟨ch :: before, behind, rfl, by rw [encode_cons, List.length_append]⟩
      · rintro ⟨before, behind, split, size⟩
        cases before with
        | nil => exact absurd size.symm atStart
        | cons other before =>
          obtain ⟨rfl, rfl⟩ := List.cons.inj split
          rw [encode_cons, List.length_append] at size
          exact ⟨before, behind, rfl, by omega⟩

theorem boundary_between (before behind : List Char) :
    regexUtf8Boundary (encode (before ++ behind)) (encode before).length = true := by
  rw [regexUtf8Boundary_iff _ _ (by simp)]
  exact ⟨before, behind, rfl, rfl⟩

/-! ## The search -/

/-- No match that begins at or behind `offset` begins in front of `first`. -/
def Leftmost (program : CProgram) (text : List Char) (offset first : Nat) : Prop :=
  ∀ start stop, offset ≤ start → Spans program text start stop → first ≤ start

/-- `first` has a match that ends before all others, and is the least such start. -/
def EndsFirst (program : CProgram) (text : List Char) (offset first : Nat) : Prop :=
  ∃ earliest, Spans program text first earliest ∧ ∀ start stop, offset ≤ start →
    Spans program text start stop → earliest ≤ stop ∧ (stop = earliest → first ≤ start)

def Returns (program : CProgram) (text : List Char) (offset : Nat) : Option (Nat × Nat) → Prop
  | none => ∀ start stop, offset ≤ start → ¬Spans program text start stop
  | some (first, stop) => offset ≤ first ∧ EndsFirst program text offset first ∧
      Longest program text (Leftmost program text offset first) first stop

theorem searchLoop_returns (fuel : Nat) (marks : CMarks) (before behind : List Char)
    (threads : List (Thread program)) (enough : behind.length < fuel) (ready : Ready program marks)
    (covers : Covers program (offset ≤ ·) before behind threads)
    (from_ : offset ≤ (encode before).length)
    (notYet : ∀ start stop, offset ≤ start → Spans program (before ++ behind) start stop →
      (encode before).length ≤ stop) :
    ∃ marks' best, searchLoop program (encode (before ++ behind)) fuel marks
        (encode before).length none threads = some (marks', best) ∧
      Ready program marks' ∧ Returns program (before ++ behind) offset best := by
  induction fuel generalizing marks before behind threads with
  | zero => omega
  | succ fuel ih =>
    rw [searchLoop]
    have threadOf : ∀ start, offset ≤ start →
        Spans program (before ++ behind) start (encode before).length →
        ∃ x, ∃ origin ≤ start, (x, origin) ∈ threads ∧ (program.fetch x).op = .matched := by
      intro start eligible spans
      obtain ⟨x, arrives, op⟩ := spans.here
      obtain ⟨origin, le, inThreads⟩ := covers.least x start eligible arrives
        (isMatch_leaf op before behind)
      exact ⟨x, origin, le, inThreads, op⟩
    by_cases found : threads.any (isMatch program) = true
    · obtain ⟨x, first, inThreads, op, folded, least⟩ :=
        improve_some (encode before).length covers.sorted found
      rw [folded]
      obtain ⟨_, eligible, arrives⟩ := covers.sound x first inThreads
      have begun := arrives.origin_le
      have spans := Spans.of_thread arrives op
      have endsFirst : EndsFirst program (before ++ behind) offset first := by
        refine ⟨_, spans, ?_⟩
        intro start stop isEligible isSpan
        refine ⟨notYet start stop isEligible isSpan, ?_⟩
        rintro rfl
        obtain ⟨y, origin, le, inThreads', op'⟩ := threadOf start isEligible isSpan
        exact Nat.le_trans (least y origin inThreads' op') le
      have goesOn : ∃ marks' stop, searchStep program (encode (before ++ behind))
          (searchLoop program (encode (before ++ behind)) fuel) marks (encode before).length
          (some (first, (encode before).length)) threads = some (marks', some (first, stop)) ∧
          Ready program marks' ∧ Longest program (before ++ behind)
            (Leftmost program (before ++ behind) offset first) first stop := by
        apply searchStep_kept ready (covers.kept eligible begun) spans
        · intro _ other lt _
          exact Nat.le_of_lt_succ lt
        intro ch rest marks' threads' split ready' kept' only'
        subst split
        rw [snoc_cons before rest ch] at spans kept' ⊢
        apply searchLoop_kept fuel marks' (before ++ [ch]) rest threads' (by simpa using enough)
          ready' kept' only' spans
        · rw [encode_snoc]
          omega
        · intro isLeftmost other lt isSpan
          by_contra later
          rw [← snoc_cons] at isSpan
          have beyond := isSpan.beyond (by omega)
          omega
      obtain ⟨marks', stop, ended, readyAfter, longest⟩ := goesOn
      exact ⟨marks', _, ended, readyAfter, eligible, endsFirst, longest⟩
    · rw [improve_none found]
      cases behind with
      | nil =>
        refine ⟨marks, none, ?_, ready, ?_⟩
        · rw [searchStep, if_pos]
          simp
        intro start stop eligible spans
        have atEnd : stop = (encode before).length := by
          apply Nat.le_antisymm _ (notYet start stop eligible spans)
          obtain ⟨front, rest, _, split, rfl, _, _⟩ := spans
          rw [List.append_nil] at split
          rw [split, encode_append, List.length_append]
          exact Nat.le_add_right _ _
        subst atEnd
        obtain ⟨x, origin, _, inThreads, op⟩ := threadOf start eligible spans
        exact found (any_isMatch.mpr ⟨x, origin, inThreads, op⟩)
      | cons ch rest =>
        have lt := encode_lt before rest ch
        have sorted := roots_sorted covers (fun _ => true)
          ((program.state program.start).toList.map (·, (encode (before ++ [ch])).length))
          (by
            intro root inStarts
            obtain ⟨_, _, rfl⟩ := List.mem_map.mp inStarts
            rfl)
          (by cases program.state program.start <;> simp)
        obtain ⟨after, added, readyAfter, listed⟩ :=
          regexAddStates_listed ready (before ++ [ch]) rest _ sorted
        rw [regexAddStates, visitRoots_append, Option.bind_eq_some_iff] at added
        obtain ⟨stepped, addedStep, addedStart⟩ := added
        have coversAfter : Covers program (offset ≤ ·) (before ++ [ch]) rest after.2 := by
          apply covers.step _ listed
          intro s origin
          simp only [List.mem_map, Option.mem_toList, Prod.mk.injEq]
          constructor
          · rintro ⟨_, isStart, rfl, rfl⟩
            exact ⟨isStart, by rw [encode_snoc]; omega, rfl⟩
          · rintro ⟨isStart, _, rfl⟩
            exact ⟨s, isStart, rfl, rfl⟩
        rw [searchStep, if_neg (by
          rw [Option.isSome_none, Bool.false_and, Bool.or_false, decide_eq_true_eq]
          omega), encode_drop, utf8DecodeRune_encode]
        simp only [Option.map_some, Option.getD_some, Option.isNone_none, Bool.true_and,
          Option.all_none]
        rw [← encode_snoc, snoc_cons before rest ch, boundary_between,
          regexAddStates, addedStep]
        simp only [Option.bind_eq_bind, Option.bind_some, if_true]
        rw [regexAddStates, addedStart]
        simp only [Option.bind_some, Option.isSome_none, Bool.false_and, Bool.false_eq_true,
          if_false]
        apply ih _ (before ++ [ch]) rest after.2 (by simpa using enough) readyAfter coversAfter
        · rw [encode_snoc]
          omega
        intro start stop eligible spans
        rw [← snoc_cons] at spans
        by_cases atHere : stop = (encode before).length
        · subst atHere
          obtain ⟨x, origin, _, inThreads, op⟩ := threadOf start eligible spans
          exact absurd (any_isMatch.mpr ⟨x, origin, inThreads, op⟩) found
        · have le := notYet start stop eligible spans
          exact spans.beyond (by omega)

theorem boundary_past {text : List UInt8} (past : text.length ≤ position) :
    regexUtf8Boundary text position = true := by
  rw [regexUtf8Boundary, decide_eq_true (show position ≥ text.length from past)]
  simp

theorem nextBoundary_spec (text : List UInt8) (fuel position : Nat)
    (enough : text.length ≤ position + fuel) :
    position ≤ nextBoundary text fuel position ∧
      nextBoundary text fuel position ≤ max position text.length ∧
      regexUtf8Boundary text (nextBoundary text fuel position) = true ∧
      ∀ other, position ≤ other → other < nextBoundary text fuel position →
        regexUtf8Boundary text other = false := by
  induction fuel generalizing position with
  | zero =>
    refine ⟨Nat.le_refl _, Nat.le_max_left _ _, ?_, ?_⟩
    · exact boundary_past (by rwa [Nat.add_zero] at enough)
    · intro other le lt
      simp only [nextBoundary] at lt
      omega
  | succ fuel ih =>
    rw [nextBoundary]
    split
    next inside =>
      rw [Bool.and_eq_true, decide_eq_true_eq, Bool.not_eq_true'] at inside
      obtain ⟨below, above, isBoundary, gap⟩ := ih (position + 1) (by omega)
      refine ⟨by omega, by omega, isBoundary, ?_⟩
      intro other le lt
      by_cases same : other = position
      · rw [same]
        exact inside.2
      · exact gap other (by omega) lt
    next ends =>
      refine ⟨Nat.le_refl _, Nat.le_max_left _ _, ?_, ?_⟩
      · rw [Bool.and_eq_true, decide_eq_true_eq, Bool.not_eq_true', not_and,
          Bool.not_eq_false] at ends
        by_cases inside : position < text.length
        · exact ends inside
        · exact boundary_past (Nat.le_of_not_lt inside)
      · intro other le lt
        omega

theorem Spans.start_boundary {text : List Char} (spans : Spans program text start stop) :
    start ≤ (encode text).length ∧ regexUtf8Boundary (encode text) start = true := by
  obtain ⟨_, behind, _, rfl, _, ⟨skipped, word, _, _, rfl, rfl, _, _⟩, _⟩ := spans
  rw [List.append_assoc]
  refine ⟨by simp, boundary_between skipped (word ++ behind)⟩

theorem Returns.back {text : List Char} {from_ : Nat} (le : offset ≤ from_)
    (gap : ∀ start stop, offset ≤ start → Spans program text start stop → from_ ≤ start)
    (returns : Returns program text from_ best) : Returns program text offset best := by
  cases best with
  | none =>
    intro start stop eligible spans
    exact returns start stop (gap start stop eligible spans) spans
  | some best =>
    obtain ⟨eligible, ⟨earliest, found, first⟩, longest⟩ := returns
    refine ⟨Nat.le_trans le eligible, ⟨earliest, found, ?_⟩, longest.1, ?_⟩
    · intro start stop isEligible spans
      exact first start stop (gap start stop isEligible spans) spans
    · intro leftmost
      apply longest.2
      intro start stop isEligible spans
      exact leftmost start stop (Nat.le_trans le isEligible) spans

theorem regexSearchAtN_returns (regex : CRegex) (text : List Char) (offset : Nat)
    (compiled : regex.error = .ok) (ready : Ready regex.program regex.marks) :
    ∃ marks best, regexSearchAtN regex (encode text) offset =
        some ({ regex with marks := marks }, best) ∧ Ready regex.program marks ∧
      Returns regex.program text offset best := by
  by_cases inside : offset ≤ (encode text).length
  · have outer : ¬(regex.error ≠ .ok ∨ offset > (encode text).length) := by
      rw [compiled]
      simp only [ne_eq, not_true_eq_false, false_or, gt_iff_lt]
      omega
    obtain ⟨le, limit, isBoundary, gap⟩ :=
      nextBoundary_spec (encode text) (encode text).length offset (by omega)
    simp only [regexSearchAtN]
    rw [if_neg outer]
    generalize nextBoundary (encode text) (encode text).length offset = from_ at le limit isBoundary gap
    obtain ⟨before, behind, rfl, rfl⟩ :=
      (regexUtf8Boundary_iff text from_ (by omega)).mp isBoundary
    obtain ⟨found, added, readyAfter, listed⟩ := regexAddStates_listed ready before behind
      ((regex.program.state regex.program.start).toList.map (·, (encode before).length)) (by
        cases regex.program.state regex.program.start <;> simp)
    have covers : Covers regex.program ((encode before).length ≤ ·) before behind found.2 := by
      apply Covers.begin (Nat.le_refl _) _ listed
      intro origin eligible below
      omega
    have fuelled : behind.length < (encode (before ++ behind)).length + 1 := by
      have size := encode_length_le behind
      rw [encode_append, List.length_append]
      omega
    obtain ⟨marks, best, ended, readyLast, returns⟩ := searchLoop_returns
      ((encode (before ++ behind)).length + 1) _ before behind found.2 fuelled readyAfter covers
      (Nat.le_refl _) (by
        intro start stop eligible spans
        obtain ⟨_, _, _, _, rfl, arrives, _⟩ := spans
        exact Nat.le_trans eligible arrives.origin_le)
    simp only [added, ended, Option.bind_eq_bind, Option.bind_some]
    refine ⟨marks, best, rfl, readyLast, returns.back le ?_⟩
    intro start stop eligible spans
    by_contra early
    have notBoundary := gap start eligible (by omega)
    rw [spans.start_boundary.2] at notBoundary
    cases notBoundary
  · refine ⟨regex.marks, none, ?_, ready, ?_⟩
    · rw [regexSearchAtN, if_pos (Or.inr (Nat.lt_of_not_le inside))]
    · intro start stop eligible spans
      have le := spans.start_boundary.1
      omega

end Aholyc.Regex
