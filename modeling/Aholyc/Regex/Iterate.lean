import Aholyc.Regex.Matching

/-!
# All matches in a text (lib/regex/regex.hc)

`RegexNext` goes from match to match. What it finds does not depend on the
marks of earlier searches, so that two passes over a text find the same.
-/

namespace Aholyc.Regex

open Aholyc.Lib.Closure Aholyc.Text

/-! ## The iterator -/

/-- `owner` is the regex itself, which is passed along. -/
structure CRegexMatch where
  start : Nat
  stop : Nat
  text : List UInt8
  nextOffset : Nat
  done : Bool

/-- The regex, the match and whether the match is returned; otherwise the
result is NULL. -/
def regexNext (regex : CRegex) (item : CRegexMatch) : Option (CRegex × CRegexMatch × Bool) :=
  if item.done then some (regex, item, false)
  else do
    let (regex, found) ← regexSearchAtN regex item.text item.nextOffset
    match found with
    | none => some (regex, { item with done := true }, false)
    | some (start, stop) =>
      let item := { item with start := start, stop := stop }
      if stop > start then some (regex, { item with nextOffset := stop }, true)
      else if stop ≥ item.text.length then some (regex, { item with done := true }, true)
      else
        let consumed := ((utf8DecodeRune (item.text.drop stop)).map Prod.fst).getD 1
        some (regex, { item with nextOffset := stop + consumed }, true)

def regexFindN (regex : CRegex) (item : CRegexMatch) (text : List UInt8) (offset : Nat) :
    Option (CRegex × CRegexMatch × Bool) :=
  if regex.error ≠ .ok ∨ offset > text.length then some (regex, item, false)
  else regexNext regex { item with text := text, nextOffset := offset, done := false }

/-- `while (item) item = RegexNext(item)`, with the matches seen. -/
def traverse : Nat → CRegex × CRegexMatch × Bool → Option (CRegex × List (Nat × Nat))
  | 0, _ => none
  | fuel + 1, (regex, item, found) =>
    if found then do
      let next ← regexNext regex item
      let (regex, rest) ← traverse fuel next
      some (regex, (item.start, item.stop) :: rest)
    else some (regex, [])

/-! ## Searches do not depend on the marks -/

section

variable {program : CProgram}

theorem fresh_unmarked {marks : CMarks} (ready : Ready program marks) (state : program.State) :
    (seenMarks program (regexNextGeneration program marks).generation).has
      (regexNextGeneration program marks).seen state = false := by
  obtain ⟨size, small⟩ := regexNextGeneration_fresh ready
  generalize regexNextGeneration program marks = next at size small
  have inside : (state : Nat) < next.seen.length := Nat.lt_of_lt_of_le state.isLt size
  have inTake : next.seen.getD state 0 ∈ next.seen.take program.count := by
    rw [List.getD_eq_getElem?_getD, List.getElem?_eq_getElem inside, Option.getD_some]
    exact List.mem_take_iff_getElem.mpr ⟨state, by have := state.isLt; omega, rfl⟩
  have less := small _ inTake
  exact decide_eq_false (Nat.ne_of_lt less)

theorem fresh_agree {marks marks' : CMarks} (ready : Ready program marks)
    (ready' : Ready program marks') :
    Agree (seenMarks program (regexNextGeneration program marks).generation)
      (seenMarks program (regexNextGeneration program marks').generation)
      ((regexNextGeneration program marks).seen, ([] : List (Thread program)))
      ((regexNextGeneration program marks').seen, []) where
  valid := regexNextGeneration_valid ready
  valid' := regexNextGeneration_valid ready'
  same state := (fresh_unmarked ready state).trans (fresh_unmarked ready' state).symm
  listed := rfl

abbrev SameFound (program : CProgram) :
    Option (CMarks × Option (Nat × Nat)) → Option (CMarks × Option (Nat × Nat)) → Prop :=
  Option.Rel fun one two => Ready program one.1 ∧ Ready program two.1 ∧ one.2 = two.2

theorem searchLoop_same (text : List UInt8) (fuel : Nat) {marks marks' : CMarks}
    (ready : Ready program marks) (ready' : Ready program marks') (position : Nat)
    (best : Option (Nat × Nat)) (threads : List (Thread program)) :
    SameFound program (searchLoop program text fuel marks position best threads)
      (searchLoop program text fuel marks' position best threads) := by
  induction fuel generalizing marks marks' position best threads with
  | zero => exact Option.Rel.none
  | succ fuel ih =>
    simp only [searchLoop, searchStep]
    generalize threads.foldl (improve program position) best = best'
    split
    next => exact Option.Rel.some ⟨ready, ready', rfl⟩
    next =>
      apply rel_bind (visitRoots_agree _ _ (fresh_agree ready ready'))
      intro stepped stepped' agree
      split
      next =>
        apply rel_bind (visitRoots_agree _ _ agree)
        intro found found' agree'
        rw [agree'.listed]
        split
        next => exact Option.Rel.some ⟨agree'.valid, agree'.valid', rfl⟩
        next => exact @ih ⟨_, _⟩ ⟨_, _⟩ agree'.valid agree'.valid' _ _ _
      next =>
        show SameFound program (if _ then _ else _) (if _ then _ else _)
        rw [agree.listed]
        split
        next => exact Option.Rel.some ⟨agree.valid, agree.valid', rfl⟩
        next => exact @ih ⟨_, _⟩ ⟨_, _⟩ agree.valid agree.valid' _ _ _

end

theorem regexSearchAtN_same {regex : CRegex} {marks marks' : CMarks}
    (ready : Ready regex.program marks) (ready' : Ready regex.program marks') (text : List UInt8)
    (offset : Nat) :
    Option.Rel (fun one two => one.2 = two.2)
      (regexSearchAtN { regex with marks := marks } text offset)
      (regexSearchAtN { regex with marks := marks' } text offset) := by
  simp only [regexSearchAtN]
  split
  next => exact Option.Rel.some rfl
  next =>
    apply rel_bind (visitRoots_agree _ _ (fresh_agree ready ready'))
    intro found found' agree
    rw [agree.listed]
    apply rel_bind (@searchLoop_same _ text _ ⟨_, _⟩ ⟨_, _⟩ agree.valid agree.valid' _ _ _)
    intro result result' same
    exact Option.Rel.some same.2.2

def finds (regex : CRegex) (text : List UInt8) (offset : Nat) : Option (Nat × Nat) :=
  (regexSearchAtN regex text offset).bind Prod.snd

section

variable {regex : CRegex} {text : List Char}

theorem regexSearchAtN_finds (ok : regex.error = .ok) (ready : Ready regex.program regex.marks)
    {marks : CMarks} (ready' : Ready regex.program marks) (text : List Char) (offset : Nat) :
    ∃ marks', regexSearchAtN { regex with marks := marks } (encode text) offset =
        some ({ regex with marks := marks' }, finds regex (encode text) offset) ∧
      Ready regex.program marks' := by
  obtain ⟨after, best, searched, isReady, _⟩ :=
    regexSearchAtN_returns { regex with marks := marks } text offset ok ready'
  have same := regexSearchAtN_same ready' ready (encode text) offset
  rw [searched] at same
  unfold finds
  generalize isFound : regexSearchAtN regex (encode text) offset = found at same ⊢
  cases same with
  | some same =>
    have isBest : best = _ := same
    refine ⟨after, ?_, isReady⟩
    rw [searched, isBest]
    rfl

/-- A search finds nothing in front of its offset, and matches lie between
code points. -/
theorem finds_inside (ok : regex.error = .ok) (ready : Ready regex.program regex.marks)
    {offset start stop : Nat} (found : finds regex (encode text) offset = some (start, stop)) :
    offset ≤ start ∧ start ≤ stop ∧ ∃ before behind, text = before ++ behind ∧
      (encode before).length = stop := by
  obtain ⟨after, best, searched, _, returns⟩ := regexSearchAtN_returns regex text offset ok ready
  rw [finds, searched, Option.bind_some] at found
  subst found
  obtain ⟨eligible, _, longest⟩ := returns
  obtain ⟨before, behind, _, split, size, arrives, _⟩ := longest.1
  refine ⟨eligible, ?_, before, behind, split, size⟩
  rw [← size]
  exact arrives.origin_le

theorem nextBoundary_here {text : List UInt8} {position : Nat}
    (isBoundary : regexUtf8Boundary text position = true) (fuel : Nat) :
    nextBoundary text fuel position = position := by
  cases fuel with
  | zero => rfl
  | succ fuel =>
    rw [nextBoundary, if_neg]
    rw [isBoundary]
    simp

theorem boundary_inner {before behind : List Char} {ch : Char} {position : Nat}
    (isBoundary : regexUtf8Boundary (encode (before ++ ch :: behind)) position = true)
    (after : (encode before).length < position)
    (inside : position ≤ (encode (before ++ ch :: behind)).length) :
    (encode before).length + (String.utf8EncodeChar ch).length ≤ position := by
  obtain ⟨front, rest, split, rfl⟩ := (regexUtf8Boundary_iff _ position inside).mp isBoundary
  rcases List.append_eq_append_iff.mp split with ⟨word, rfl, isRest⟩ | ⟨word, rfl, _⟩
  · cases word with
    | nil => simp at after
    | cons other word =>
      obtain ⟨rfl, _⟩ := List.cons.inj isRest
      rw [encode_append, List.length_append, encode_cons, List.length_append]
      omega
  · rw [encode_append, List.length_append] at after
    omega

theorem nextBoundary_inner (before behind : List Char) (ch : Char) (fuel : Nat)
    (enough : (encode (before ++ ch :: behind)).length ≤ (encode before).length + 1 + fuel) :
    nextBoundary (encode (before ++ ch :: behind)) fuel ((encode before).length + 1) =
      (encode before).length + (String.utf8EncodeChar ch).length := by
  have positive := List.length_pos_of_ne_nil (String.utf8EncodeChar_ne_nil (c := ch))
  have size : (encode before).length + (String.utf8EncodeChar ch).length ≤
      (encode (before ++ ch :: behind)).length := by
    rw [encode_append, encode_cons, List.length_append, List.length_append]
    omega
  obtain ⟨le, limit, isBoundary, gap⟩ := nextBoundary_spec _ fuel _ enough
  have below := boundary_inner isBoundary (by omega) (by omega)
  have next := boundary_between (before ++ [ch]) behind
  rw [encode_snoc, List.append_assoc, List.singleton_append] at next
  by_contra differs
  have none := gap ((encode before).length + (String.utf8EncodeChar ch).length) (by omega) (by omega)
  rw [next] at none
  cases none

theorem finds_inner (before behind : List Char) (ch : Char) :
    finds regex (encode (before ++ ch :: behind)) ((encode before).length + 1) =
      finds regex (encode (before ++ ch :: behind))
        ((encode before).length + (String.utf8EncodeChar ch).length) := by
  have positive := List.length_pos_of_ne_nil (String.utf8EncodeChar_ne_nil (c := ch))
  have size : (encode before).length + (String.utf8EncodeChar ch).length ≤
      (encode (before ++ ch :: behind)).length := by
    rw [encode_append, encode_cons, List.length_append, List.length_append]
    omega
  have next := boundary_between (before ++ [ch]) behind
  rw [encode_snoc, List.append_assoc, List.singleton_append] at next
  have inside : ¬(encode before).length + 1 > (encode (before ++ ch :: behind)).length := by omega
  have inside' : ¬(encode before).length + (String.utf8EncodeChar ch).length >
      (encode (before ++ ch :: behind)).length := by omega
  simp only [finds, regexSearchAtN, inside, inside', or_false]
  rw [nextBoundary_inner before behind ch _ (by omega), nextBoundary_here next]

/-! ## The list of the matches -/

def matchList (find : Nat → Option (Nat × Nat)) (length : Nat) : Nat → Nat → List (Nat × Nat)
  | 0, _ => []
  | fuel + 1, offset =>
    match find offset with
    | none => []
    | some (start, stop) => (start, stop) ::
      if stop > start then matchList find length fuel stop
      else if stop ≥ length then []
      else matchList find length fuel (stop + 1)

/-- An iterator that goes on where a search from `offset` does. -/
structure Continues (regex : CRegex) (text : List Char) (item : CRegexMatch) (offset : Nat) :
    Prop where
  open_ : item.done = false
  reads : item.text = encode text
  same : finds regex (encode text) item.nextOffset = finds regex (encode text) offset

theorem traverse_found {before after last : CRegex} {item item' : CRegexMatch} {fuel : Nat}
    {rest : List (Nat × Nat)} (next : regexNext before item = some (after, item', true))
    (others : (regexNext after item').bind (traverse fuel) = some (last, rest)) :
    (regexNext before item).bind (traverse (fuel + 1)) =
      some (last, (item'.start, item'.stop) :: rest) := by
  obtain ⟨following, isNext, isRest⟩ := Option.bind_eq_some_iff.mp others
  simp [next, traverse, isNext, isRest]

/-- The iterator goes through the list of the matches. -/
theorem traverse_matchList (ok : regex.error = .ok) (ready : Ready regex.program regex.marks)
    (fuel offset : Nat) {marks : CMarks} (ready' : Ready regex.program marks) {item : CRegexMatch}
    (continues : Continues regex text item offset)
    (enough : (encode text).length + 1 < fuel + offset) (inside : offset ≤ (encode text).length) :
    ∃ marks', (regexNext { regex with marks := marks } item).bind (traverse fuel) =
        some ({ regex with marks := marks' },
          matchList (finds regex (encode text)) (encode text).length fuel offset) ∧
      Ready regex.program marks' := by
  induction fuel generalizing offset marks item with
  | zero => omega
  | succ fuel ih =>
    obtain ⟨marks', searched, isReady⟩ :=
      regexSearchAtN_finds ok ready ready' text item.nextOffset
    rw [continues.same] at searched
    cases found : finds regex (encode text) offset with
    | none =>
      refine ⟨marks', ?_, isReady⟩
      rw [found] at searched
      simp [regexNext, continues.open_, continues.reads, searched, traverse, matchList, found]
    | some range =>
      obtain ⟨start, stop⟩ := range
      obtain ⟨le, le', before, behind, split, size⟩ := finds_inside ok ready found
      have atMost : stop ≤ (encode text).length := by
        rw [split, encode_append, List.length_append]
        omega
      rw [found] at searched
      simp only [matchList, found]
      by_cases longer : stop > start
      · have next : regexNext { regex with marks := marks } item =
            some ({ regex with marks := marks' },
              { item with start := start, stop := stop, nextOffset := stop }, true) := by
          simp [regexNext, continues.open_, continues.reads, searched, longer]
        have goesOn : Continues regex text
            { item with start := start, stop := stop, nextOffset := stop } stop :=
          ⟨continues.open_, continues.reads, rfl⟩
        obtain ⟨last, others, isReady'⟩ := ih stop isReady goesOn (by omega) atMost
        rw [if_pos longer]
        exact ⟨last, traverse_found next others, isReady'⟩
      · rw [if_neg longer]
        by_cases atEnd : stop ≥ (encode text).length
        · have next : regexNext { regex with marks := marks } item =
              some ({ regex with marks := marks' },
                { item with start := start, stop := stop, done := true }, true) := by
            simp [regexNext, continues.open_, continues.reads, searched, longer, atEnd]
          have ends : (regexNext { regex with marks := marks' } { item with
              start := start, stop := stop, done := true }).bind (traverse fuel) =
              some ({ regex with marks := marks' }, []) := by
            obtain ⟨fuel, rfl⟩ : ∃ less, fuel = less + 1 := ⟨fuel - 1, by omega⟩
            simp [regexNext, traverse]
          rw [if_pos atEnd]
          exact ⟨marks', traverse_found next ends, isReady⟩
        · rw [if_neg atEnd]
          obtain ⟨ch, behind, rfl⟩ : ∃ ch rest, behind = ch :: rest := by
            cases behind with
            | nil =>
              rw [split, List.append_nil] at atEnd
              omega
            | cons ch rest => exact ⟨ch, rest, rfl⟩
          subst size
          have decoded : utf8DecodeRune ((encode text).drop (encode before).length) =
              some ((String.utf8EncodeChar ch).length, ch.val.toNat) := by
            rw [split, encode_drop, utf8DecodeRune_encode]
          have next : regexNext { regex with marks := marks } item =
              some ({ regex with marks := marks' },
                { item with
                  start := start
                  stop := (encode before).length
                  nextOffset := (encode before).length + (String.utf8EncodeChar ch).length },
                true) := by
            simp [regexNext, continues.open_, continues.reads, searched, longer, atEnd, decoded]
          have same : finds regex (encode text)
              ((encode before).length + (String.utf8EncodeChar ch).length) =
                finds regex (encode text) ((encode before).length + 1) := by
            rw [split]
            exact (finds_inner before behind ch).symm
          have goesOn : Continues regex text { item with
              start := start
              stop := (encode before).length
              nextOffset := (encode before).length + (String.utf8EncodeChar ch).length }
              ((encode before).length + 1) :=
            ⟨continues.open_, continues.reads, same⟩
          obtain ⟨last, others, isReady'⟩ :=
            ih ((encode before).length + 1) isReady goesOn (by omega) (by omega)
          exact ⟨last, traverse_found next others, isReady'⟩

def InOrder (length : Nat) : Nat → List (Nat × Nat) → Prop
  | low, [] => low ≤ length
  | low, (start, stop) :: rest => low ≤ start ∧ start ≤ stop ∧ InOrder length stop rest

theorem InOrder.low_le {length low : Nat} {ranges : List (Nat × Nat)}
    (inOrder : InOrder length low ranges) : low ≤ length := by
  induction ranges generalizing low with
  | nil => exact inOrder
  | cons range rest ih =>
    obtain ⟨le, le', others⟩ := inOrder
    have last := ih others
    omega

theorem InOrder.take {length low : Nat} {ranges : List (Nat × Nat)}
    (inOrder : InOrder length low ranges) (count : Nat) :
    InOrder length low (ranges.take count) := by
  induction ranges generalizing low count with
  | nil =>
    rw [List.take_nil]
    exact inOrder
  | cons range rest ih =>
    cases count with
    | zero => exact inOrder.low_le
    | succ count => exact ⟨inOrder.1, inOrder.2.1, ih inOrder.2.2 count⟩

theorem matchList_inOrder (ok : regex.error = .ok) (ready : Ready regex.program regex.marks)
    (fuel : Nat) {low offset : Nat} (le : low ≤ offset) (inside : offset ≤ (encode text).length) :
    InOrder (encode text).length low
      (matchList (finds regex (encode text)) (encode text).length fuel offset) := by
  induction fuel generalizing low offset with
  | zero => exact Nat.le_trans le inside
  | succ fuel ih =>
    rw [matchList]
    cases found : finds regex (encode text) offset with
    | none => exact Nat.le_trans le inside
    | some range =>
      obtain ⟨start, stop⟩ := range
      obtain ⟨from_, within, before, behind, split, size⟩ := finds_inside ok ready found
      have atMost : stop ≤ (encode text).length := by
        rw [split, encode_append, List.length_append]
        omega
      refine ⟨Nat.le_trans le from_, within, ?_⟩
      split
      next => exact ih (Nat.le_refl stop) atMost
      next =>
        split
        next => exact atMost
        next => exact ih (Nat.le_succ stop) (by omega)

end

end Aholyc.Regex
