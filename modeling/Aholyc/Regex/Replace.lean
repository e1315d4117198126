import Aholyc.Lib.Writer
import Aholyc.Regex.Iterate

/-!
# Replacing the matches (lib/regex/regex.hc)

`RegexReplaceN` goes over the matches twice: first for the size of the result,
then, if there is room, to write it. Both passes are the loop `replaceLoop`
with a body of their own.
-/

namespace Aholyc.Regex

open Aholyc.Lib Aholyc.Lib.Closure Aholyc.Text

/-! ## The source -/

def regexReplaceAdd (total amount : Int) : Option Int :=
  if amount < 0 ∨ total > i64Max - amount then none else some (total + amount)

def replacementLengthLoop (matchLength : Int) : List UInt8 → Int → Option Int
  | [], total => some total
  | [_], total => regexReplaceAdd total 1
  | ch :: next :: rest, total =>
    if ch = 0x24 ∧ next = 0x30 then
      (regexReplaceAdd total matchLength).bind (replacementLengthLoop matchLength rest)
    else
      (regexReplaceAdd total 1).bind fun total =>
        if ch = 0x24 ∧ next = 0x24 then replacementLengthLoop matchLength rest total
        else replacementLengthLoop matchLength (next :: rest) total

def regexReplacementLength (replacement : List UInt8) (matchLength : Int) : Option Int :=
  replacementLengthLoop matchLength replacement 0

/-- `if (n) MemCpy(output + at, bytes, n)` -/
def copyBytes (writer : Writer UInt8) (bytes : List UInt8) : Option (Writer UInt8) :=
  if bytes.isEmpty then some writer else writer.put bytes

def regexWriteReplacement (matched : List UInt8) :
    List UInt8 → Writer UInt8 → Option (Writer UInt8)
  | [], writer => some writer
  | [ch], writer => writer.put [ch]
  | ch :: next :: rest, writer =>
    if ch = 0x24 ∧ next = 0x30 then
      (copyBytes writer matched).bind (regexWriteReplacement matched rest)
    else
      (writer.put [ch]).bind fun writer =>
        if ch = 0x24 ∧ next = 0x24 then regexWriteReplacement matched rest writer
        else regexWriteReplacement matched (next :: rest) writer

/-- One of the two loops over the matches. `body` takes what the loop computes,
`copied` and the match; where it is `none` the loop is left for good. The
result is the regex, and `copied` and what the loop has computed. -/
def replaceLoop {σ : Type} (text : List UInt8) (limit : Int)
    (body : σ → Nat → Nat × Nat → Option σ) :
    Nat → CRegex → Nat → Nat → Int → σ → Option (CRegex × Option (Nat × σ))
  | 0, _, _, _, _, _ => none
  | fuel + 1, regex, search, copied, count, s =>
    if search > text.length then some (regex, some (copied, s))
    else if limit ≥ 0 ∧ count ≥ limit then some (regex, some (copied, s))
    else
      (regexSearchAtN regex text search).bind fun searched =>
        match searched.2 with
        | none => some (searched.1, some (copied, s))
        | some (start, stop) =>
          match body s copied (start, stop) with
          | none => some (searched.1, none)
          | some s =>
            if stop = start then
              if stop = text.length then some (searched.1, some (stop, s))
              else replaceLoop text limit body fuel searched.1 (stop + 1) stop (count + 1) s
            else replaceLoop text limit body fuel searched.1 stop stop (count + 1) s

def sizeBody (replacement : List UInt8) (needed : Int) (copied : Nat) (range : Nat × Nat) :
    Option Int := do
  let needed ← regexReplaceAdd needed ((range.1 : Int) - copied)
  let part ← regexReplacementLength replacement ((range.2 : Int) - range.1)
  regexReplaceAdd needed part

def writeBody (text replacement : List UInt8) (writer : Writer UInt8) (copied : Nat)
    (range : Nat × Nat) : Option (Writer UInt8) :=
  (if range.1 > copied then writer.put ((text.take range.1).drop copied) else some writer).bind
    (regexWriteReplacement ((text.take range.2).drop range.1) replacement)

/-- What `RegexReplaceN` returns, with the regex and the output behind it; -1
is `none`. -/
structure Replaced where
  regex : CRegex
  needed : Option Int
  output : Option (List UInt8)

def writeRest (text : List UInt8) (copied : Nat) (writer : Writer UInt8) : Option (Writer UInt8) :=
  (if copied < text.length then writer.put (text.drop copied) else some writer).bind
    (Writer.put · [0])

/-- The second pass. A write outside of the buffer has no result. -/
def writeReplaced (regex : CRegex) (text replacement : List UInt8) (limit : Int) (needed : Int)
    (output : List UInt8) : Option Replaced := do
  let (regex, written) ← replaceLoop text limit (writeBody text replacement) (text.length + 2)
    regex 0 0 0 ⟨output, 0⟩
  let (copied, writer) ← written
  let writer ← writeRest text copied writer
  some ⟨regex, some needed, some writer.output⟩

def regexReplaceN (regex : CRegex) (text replacement : List UInt8) (output : Option (List UInt8))
    (capacity limit : Int) : Option Replaced :=
  if regex.error ≠ .ok ∨ capacity < 0 ∨ limit < -1 then some ⟨regex, none, output⟩
  else do
    let (regex, sized) ← replaceLoop text limit (sizeBody replacement) (text.length + 2)
      regex 0 0 0 (0 : Int)
    match sized.bind fun sized => regexReplaceAdd sized.2 (text.length - sized.1) with
    | none => some ⟨regex, none, output⟩
    | some needed =>
      match output with
      | none => some ⟨regex, some needed, output⟩
      | some buffer =>
        if needed = i64Max ∨ capacity ≤ needed then some ⟨regex, some needed, output⟩
        else writeReplaced regex text replacement limit needed buffer

/-! ## The purpose -/

/-- The replacement text for a match: `$0` is the match and `$$` a dollar. -/
def expand (matched : List UInt8) : List UInt8 → List UInt8
  | [] => []
  | [ch] => [ch]
  | ch :: next :: rest =>
    if ch = 0x24 ∧ next = 0x30 then matched ++ expand matched rest
    else if ch = 0x24 ∧ next = 0x24 then 0x24 :: expand matched rest
    else ch :: expand matched (next :: rest)

/-- The text up to the end of the last match, from `copied` on, with the
matches replaced. -/
def spliced (text replacement : List UInt8) : Nat → List (Nat × Nat) → List UInt8
  | _, [] => []
  | copied, (start, stop) :: rest =>
    (text.take start).drop copied ++ expand ((text.take stop).drop start) replacement ++
      spliced text replacement stop rest

def lastEnd : Nat → List (Nat × Nat) → Nat
  | copied, [] => copied
  | _, (_, stop) :: rest => lastEnd stop rest

theorem InOrder.lastEnd_le {length copied : Nat} {ranges : List (Nat × Nat)}
    (inOrder : InOrder length copied ranges) : lastEnd copied ranges ≤ length := by
  induction ranges generalizing copied with
  | nil => exact inOrder
  | cons range rest ih => exact ih inOrder.2.2

def replaceAll (text replacement : List UInt8) (ranges : List (Nat × Nat)) : List UInt8 :=
  spliced text replacement 0 ranges ++ text.drop (lastEnd 0 ranges)

def stored (result : List UInt8) (capacity : Int) (buffer : List UInt8) : List UInt8 :=
  if (result.length : Int) < capacity ∧ (result.length : Int) < i64Max then
    result ++ 0 :: buffer.drop (result.length + 1)
  else buffer

/-! ## The loop -/

def overRanges {σ : Type} (body : σ → Nat → Nat × Nat → Option σ) :
    List (Nat × Nat) → Nat → σ → Option (Nat × σ)
  | [], copied, s => some (copied, s)
  | range :: rest, copied, s => (body s copied range).bind (overRanges body rest range.2)

def limited (limit count : Int) (ranges : List (Nat × Nat)) : List (Nat × Nat) :=
  if limit ≥ 0 then ranges.take (limit - count).toNat else ranges

theorem limited_cons {limit count : Int} (more : ¬(limit ≥ 0 ∧ count ≥ limit))
    (range : Nat × Nat) (rest : List (Nat × Nat)) :
    limited limit count (range :: rest) = range :: limited limit (count + 1) rest := by
  unfold limited
  split
  next bounded =>
    have one : (limit - count).toNat = (limit - (count + 1)).toNat + 1 := by omega
    rw [one, List.take_succ_cons]
  next => rfl

theorem limited_nil (limit count : Int) : limited limit count [] = [] := by
  unfold limited
  split
  · exact List.take_nil
  · rfl

section

variable {regex : CRegex} {text : List Char} {σ : Type}

theorem replaceLoop_eq (ok : regex.error = .ok) (ready : Ready regex.program regex.marks)
    (limit : Int) (body : σ → Nat → Nat × Nat → Option σ) (fuel search copied : Nat) (count : Int)
    (s : σ) {marks : CMarks} (ready' : Ready regex.program marks)
    (enough : (encode text).length + 1 < fuel + search) (inside : search ≤ (encode text).length) :
    ∃ marks', replaceLoop (encode text) limit body fuel { regex with marks := marks } search copied
        count s = some ({ regex with marks := marks' },
          overRanges body (limited limit count
            (matchList (finds regex (encode text)) (encode text).length fuel search)) copied s) ∧
      Ready regex.program marks' := by
  induction fuel generalizing search copied count s marks with
  | zero => omega
  | succ fuel ih =>
    rw [replaceLoop, if_neg (Nat.not_lt_of_le inside)]
    by_cases full : limit ≥ 0 ∧ count ≥ limit
    · have none : limited limit count (matchList (finds regex (encode text))
          (encode text).length (fuel + 1) search) = [] := by
        rw [limited, if_pos full.1, Int.toNat_eq_zero.mpr (by omega), List.take_zero]
      rw [if_pos full, none]
      exact ⟨marks, rfl, ready'⟩
    · obtain ⟨marks', searched, isReady⟩ := regexSearchAtN_finds ok ready ready' text search
      rw [if_neg full, searched, Option.bind_some, matchList]
      cases found : finds regex (encode text) search with
      | none =>
        refine ⟨marks', ?_, isReady⟩
        rw [limited_nil]
        rfl
      | some range =>
        obtain ⟨start, stop⟩ := range
        obtain ⟨_, within, before, behind, split, size⟩ := finds_inside ok ready found
        have atMost : stop ≤ (encode text).length := by
          rw [split, encode_append, List.length_append]
          omega
        dsimp only
        rw [limited_cons full, overRanges]
        cases result : body s copied (start, stop) with
        | none => exact ⟨marks', rfl, isReady⟩
        | some s' =>
          dsimp only [Option.bind_some]
          by_cases empty : stop = start
          · have notLonger : ¬stop > start := by omega
            rw [if_pos empty, if_neg notLonger]
            by_cases atEnd : stop = (encode text).length
            · rw [if_pos atEnd, if_pos (Nat.le_of_eq atEnd.symm), limited_nil]
              exact ⟨marks', rfl, isReady⟩
            · have notEnd : ¬stop ≥ (encode text).length := by omega
              rw [if_neg atEnd, if_neg notEnd]
              exact ih (stop + 1) stop (count + 1) s' isReady (by omega) (by omega)
          · have longer : stop > start := by omega
            rw [if_neg empty, if_pos longer]
            exact ih stop stop (count + 1) s' isReady (by omega) atMost

end

/-! ## The size -/

def bounded (total : Int) : Option Int := if total ≤ i64Max then some total else none

theorem regexReplaceAdd_eq (total : Int) {amount : Int} (positive : 0 ≤ amount) :
    regexReplaceAdd total amount = bounded (total + amount) := by
  unfold regexReplaceAdd bounded
  by_cases fits : total + amount ≤ i64Max
  · rw [if_pos fits, if_neg (by omega)]
  · rw [if_neg fits, if_pos (by omega)]

theorem bounded_bind (total : Int) {amount : Int} (positive : 0 ≤ amount) :
    (bounded total).bind (fun total => bounded (total + amount)) = bounded (total + amount) := by
  unfold bounded
  by_cases fits : total ≤ i64Max
  · rw [if_pos fits, Option.bind_some]
  · rw [if_neg fits, if_neg (by omega), Option.bind_none]

theorem regexReplaceAdd_bind {α : Type} (total : Int) (amount : Nat) (next : Int → Option α) :
    (bounded total).bind (fun total => (regexReplaceAdd total amount).bind next) =
      (bounded (total + amount)).bind next := by
  have positive : 0 ≤ (amount : Int) := Int.natCast_nonneg amount
  simp only [regexReplaceAdd_eq _ positive]
  rw [← bounded_bind total positive, Option.bind_assoc]

theorem replacementLengthLoop_eq (matched replacement : List UInt8) (total : Int) :
    (bounded total).bind (replacementLengthLoop matched.length replacement) =
      bounded (total + (expand matched replacement).length) := by
  fun_induction expand matched replacement generalizing total with
  | case1 =>
    rw [List.length_nil, Int.natCast_zero, Int.add_zero]
    exact Option.bind_fun_some (bounded total)
  | case2 ch =>
    have one := regexReplaceAdd_bind total 1 some
    simp only [Option.bind_fun_some] at one
    exact one
  | case3 ch next rest isMatch ih =>
    simp only [replacementLengthLoop, if_pos isMatch]
    rw [regexReplaceAdd_bind, ih, List.length_append, Int.natCast_add, Int.add_assoc]
  | case4 ch next rest notMatch isDollar ih =>
    simp only [replacementLengthLoop, if_neg notMatch, if_pos isDollar]
    have one := regexReplaceAdd_bind total 1 (replacementLengthLoop matched.length rest)
    rw [ih] at one
    refine one.trans ?_
    rw [List.length_cons, Int.natCast_add, Int.add_assoc, Int.add_comm ((1 : Nat) : Int)]
  | case5 ch next rest notMatch notDollar ih =>
    simp only [replacementLengthLoop, if_neg notMatch, if_neg notDollar]
    have one := regexReplaceAdd_bind total 1 (replacementLengthLoop matched.length (next :: rest))
    rw [ih] at one
    refine one.trans ?_
    rw [List.length_cons, Int.natCast_add, Int.add_assoc, Int.add_comm ((1 : Nat) : Int)]

theorem regexReplacementLength_eq (matched replacement : List UInt8) :
    regexReplacementLength replacement matched.length =
      bounded (expand matched replacement).length := by
  have loop := replacementLengthLoop_eq matched replacement 0
  rw [Int.zero_add] at loop
  exact loop

/-- One round of the first pass adds the size of what it stands for. -/
theorem sizeBody_bind {α : Type} {text replacement : List UInt8} {start stop copied : Nat}
    (after : copied ≤ start) (ordered : start ≤ stop) (inside : stop ≤ text.length) {needed : Int}
    (positive : 0 ≤ needed) (next : Int → Option α) :
    (bounded needed).bind (fun needed =>
      (sizeBody replacement needed copied (start, stop)).bind next) =
      (bounded (needed + ((text.take start).drop copied).length +
        (expand ((text.take stop).drop start) replacement).length)).bind next := by
  have gap : (start : Int) - copied = (((text.take start).drop copied).length : Nat) := by
    rw [List.length_drop, List.length_take]
    omega
  have word : (stop : Int) - start = (((text.take stop).drop start).length : Nat) := by
    rw [List.length_drop, List.length_take]
    omega
  generalize (text.take start).drop copied = front at gap
  generalize (text.take stop).drop start = matched at word
  simp only [sizeBody, gap, word, regexReplacementLength_eq, Option.bind_eq_bind, Option.bind_assoc]
  rw [regexReplaceAdd_bind]
  by_cases fits : ((expand matched replacement).length : Int) ≤ i64Max
  · have isPart : bounded (expand matched replacement).length =
        some ((expand matched replacement).length : Int) := if_pos fits
    simp only [isPart, Option.bind_some]
    exact regexReplaceAdd_bind _ _ next
  · have isNone : bounded (expand matched replacement).length = none := if_neg fits
    have large : bounded (needed + front.length + (expand matched replacement).length) = none :=
      if_neg (by omega)
    rw [isNone, large]
    cases bounded (needed + front.length) <;> rfl

theorem overRanges_size {text replacement : List UInt8} {ranges : List (Nat × Nat)} {copied : Nat}
    (inOrder : InOrder text.length copied ranges) {needed : Int} (positive : 0 ≤ needed) :
    (bounded needed).bind (overRanges (sizeBody replacement) ranges copied) =
      (bounded (needed + (spliced text replacement copied ranges).length)).map
        fun needed => (lastEnd copied ranges, needed) := by
  induction ranges generalizing copied needed with
  | nil =>
    rw [spliced, List.length_nil, Int.natCast_zero, Int.add_zero, Option.map_eq_bind]
    rfl
  | cons range rest ih =>
    obtain ⟨start, stop⟩ := range
    obtain ⟨after, ordered, others⟩ := inOrder
    simp only [overRanges]
    rw [sizeBody_bind after ordered others.low_le positive]
    rw [ih others (by omega), spliced, lastEnd]
    simp only [List.length_append, Int.natCast_add, Int.add_assoc]

/-! ## The writing -/

theorem copy_written {old front bytes : List UInt8}
    (room : front.length + bytes.length ≤ old.length) :
    copyBytes (written old front) bytes = some (written old (front ++ bytes)) := by
  unfold copyBytes
  split
  next isEmpty =>
    rw [List.isEmpty_iff.mp isEmpty, List.append_nil]
  next => exact put_written room

theorem regexWriteReplacement_written (old matched replacement front : List UInt8)
    (room : front.length + (expand matched replacement).length ≤ old.length) :
    regexWriteReplacement matched replacement (written old front) =
      some (written old (front ++ expand matched replacement)) := by
  fun_induction expand matched replacement generalizing front with
  | case1 => rw [List.append_nil, regexWriteReplacement]
  | case2 ch => exact put_written room
  | case3 ch next rest isMatch ih =>
    rw [List.length_append] at room
    have first : front.length + matched.length ≤ old.length := by omega
    have others := ih (front ++ matched) (by rw [List.length_append]; omega)
    rw [regexWriteReplacement, if_pos isMatch, copy_written first, Option.bind_some, others,
      List.append_assoc]
  | case4 ch next rest notMatch isDollar ih =>
    rw [List.length_cons] at room
    have first : front.length + [(0x24 : UInt8)].length ≤ old.length := by
      rw [List.length_singleton]
      omega
    have others := ih (front ++ [0x24]) (by rw [List.length_append, List.length_singleton]; omega)
    rw [regexWriteReplacement, if_neg notMatch, isDollar.1, put_written first, Option.bind_some,
      if_pos ⟨rfl, isDollar.2⟩, others, List.append_assoc, List.singleton_append]
  | case5 ch next rest notMatch notDollar ih =>
    rw [List.length_cons] at room
    have first : front.length + [ch].length ≤ old.length := by
      rw [List.length_singleton]
      omega
    have others := ih (front ++ [ch]) (by rw [List.length_append, List.length_singleton]; omega)
    rw [regexWriteReplacement, if_neg notMatch, put_written first, Option.bind_some,
      if_neg notDollar, others, List.append_assoc, List.singleton_append]

/-- The second pass writes what the first one has counted. -/
theorem overRanges_write {text replacement old : List UInt8} (ranges : List (Nat × Nat))
    (copied : Nat) (front : List UInt8)
    (room : front.length + (spliced text replacement copied ranges).length ≤ old.length) :
    overRanges (writeBody text replacement) ranges copied (written old front) =
      some (lastEnd copied ranges,
        written old (front ++ spliced text replacement copied ranges)) := by
  induction ranges generalizing copied front with
  | nil => rw [spliced, List.append_nil, overRanges, lastEnd]
  | cons range rest ih =>
    obtain ⟨start, stop⟩ := range
    rw [spliced, List.length_append, List.length_append] at room
    have gap : (if start > copied then (written old front).put ((text.take start).drop copied)
        else some (written old front)) =
        some (written old (front ++ (text.take start).drop copied)) := by
      split
      next => exact put_written (by omega)
      next after =>
        have none : (text.take start).drop copied = [] := by
          apply List.drop_eq_nil_of_le
          rw [List.length_take]
          omega
        rw [none, List.append_nil]
    have word := regexWriteReplacement_written old ((text.take stop).drop start) replacement
      (front ++ (text.take start).drop copied) (by rw [List.length_append]; omega)
    have others := ih stop (front ++ (text.take start).drop copied ++
      expand ((text.take stop).drop start) replacement)
      (by rw [List.length_append, List.length_append]; omega)
    simp only [overRanges, writeBody]
    rw [gap, Option.bind_some, word, Option.bind_some, others, spliced, lastEnd]
    simp only [List.append_assoc]

theorem writeRest_written {text old front : List UInt8} {copied : Nat}
    (room : front.length + (text.drop copied).length < old.length) :
    writeRest text copied (written old front) =
      some (written old (front ++ text.drop copied ++ [0])) := by
  have rest : (if copied < text.length then (written old front).put (text.drop copied)
      else some (written old front)) = some (written old (front ++ text.drop copied)) := by
    split
    next => exact put_written (by omega)
    next behind => rw [List.drop_eq_nil_of_le (by omega), List.append_nil]
  have last : (front ++ text.drop copied).length + [(0 : UInt8)].length ≤ old.length := by
    rw [List.length_append, List.length_singleton]
    omega
  rw [writeRest, rest, Option.bind_some, put_written last]

/-! ## The result -/

variable {used : CRegex}

theorem replaceLoop_uses {σ : Type} {text : List UInt8} {limit : Int}
    {body : σ → Nat → Nat × Nat → Option σ} {fuel search copied : Nat} {count : Int} {s : σ}
    {regex after : CRegex} {result : Option (Nat × σ)} (uses : Uses regex used)
    (returned : replaceLoop text limit body fuel used search copied count s = some (after, result)) :
    Uses regex after := by
  induction fuel generalizing used search copied count s with
  | zero => cases returned
  | succ fuel ih =>
    rw [replaceLoop] at returned
    split at returned
    · cases returned
      exact uses
    split at returned
    · cases returned
      exact uses
    obtain ⟨⟨next, best⟩, searched, others⟩ := Option.bind_eq_some_iff.mp returned
    have isNext := Uses.search used next text search best uses searched
    dsimp only at others
    split at others
    · cases others
      exact isNext
    split at others
    · cases others
      exact isNext
    split at others
    · split at others
      · cases others
        exact isNext
      · exact ih isNext others
    · exact ih isNext others

theorem InOrder.limited {length : Nat} {ranges : List (Nat × Nat)}
    (inOrder : InOrder length 0 ranges) (limit count : Int) :
    InOrder length 0 (limited limit count ranges) := by
  unfold Regex.limited
  split
  · exact inOrder.take _
  · exact inOrder

theorem overRanges_needed {text replacement : List UInt8} {ranges : List (Nat × Nat)}
    (inOrder : InOrder text.length 0 ranges) :
    ((overRanges (sizeBody replacement) ranges 0 0).bind fun sized =>
      regexReplaceAdd sized.2 (text.length - sized.1)) =
      bounded (replaceAll text replacement ranges).length := by
  have size := @overRanges_size text replacement ranges 0 inOrder 0 (Int.le_refl 0)
  have start : bounded 0 = some 0 := rfl
  have last := inOrder.lastEnd_le
  have behind : (text.length : Int) - lastEnd 0 ranges = (text.length - lastEnd 0 ranges : Nat) := by
    omega
  rw [start, Option.bind_some, Int.zero_add] at size
  rw [size, Option.bind_map]
  simp only [Function.comp_def, behind]
  have sum := regexReplaceAdd_bind (spliced text replacement 0 ranges).length
    (text.length - lastEnd 0 ranges) some
  simp only [Option.bind_fun_some] at sum
  rw [sum, replaceAll, List.length_append, List.length_drop, Int.natCast_add]

def allMatches (regex : CRegex) (text : List UInt8) : List (Nat × Nat) :=
  matchList (finds regex text) text.length (text.length + 2) 0

/-- What `RegexReplaceN` returns and leaves behind, given the matches. -/
def replaced (after : CRegex) (text replacement : List UInt8) (ranges : List (Nat × Nat))
    (output : Option (List UInt8)) (capacity limit : Int) : Replaced :=
  if capacity < 0 ∨ limit < -1 then ⟨after, none, output⟩
  else
    let result := replaceAll text replacement (limited limit 0 ranges)
    ⟨after, bounded result.length, output.map (stored result capacity)⟩

section

variable {regex : CRegex}

theorem writeReplaced_eq (ok : regex.error = .ok) (ready : Ready regex.program regex.marks)
    (uses : Uses regex used) (text : List Char) (replacement buffer : List UInt8)
    (limit needed : Int) {result : List UInt8} (isResult : replaceAll (encode text) replacement
      (limited limit 0 (allMatches regex (encode text))) = result)
    (room : result.length < buffer.length) :
    ∃ after, Uses regex after ∧
      writeReplaced used (encode text) replacement limit needed buffer =
        some ⟨after, some needed, some (result ++ 0 :: buffer.drop (result.length + 1))⟩ := by
  obtain ⟨marks, rfl, ready'⟩ := uses.ready ready
  have loop := @replaceLoop_eq regex text _ ok ready limit (writeBody (encode text) replacement)
    ((encode text).length + 2) 0 0 0 (written buffer []) marks ready' (by omega) (Nat.zero_le _)
  obtain ⟨marks', passed, _⟩ := loop
  subst isResult
  rw [replaceAll, List.length_append] at room
  have pass := @overRanges_write (encode text) replacement buffer
    (limited limit 0 (allMatches regex (encode text))) 0 []
    (by rw [List.length_nil]; omega)
  have rest := @writeRest_written (encode text) buffer _ _ room
  rw [allMatches, List.nil_append] at pass
  rw [pass] at passed
  refine ⟨_, replaceLoop_uses uses passed, ?_⟩
  unfold writeReplaced
  simp only [Option.bind_eq_bind]
  rw [← written_nil, passed]
  simp only [Option.bind_some]
  rw [allMatches] at rest
  rw [rest]
  simp [written, replaceAll, allMatches, List.append_assoc, Nat.add_assoc]

theorem regexFindN_matches (ok : regex.error = .ok) (ready : Ready regex.program regex.marks)
    (uses : Uses regex used) (text : List Char) (item : CRegexMatch) :
    ∃ after, (regexFindN used item (encode text) 0).bind
      (traverse ((encode text).length + 2)) = some (after, allMatches regex (encode text)) := by
  obtain ⟨marks, rfl, ready'⟩ := uses.ready ready
  have starts : Continues regex text
      { item with text := encode text, nextOffset := 0, done := false } 0 := ⟨rfl, rfl, rfl⟩
  obtain ⟨marks', passed, _⟩ := traverse_matchList ok ready ((encode text).length + 2) 0 ready'
    starts (by omega) (Nat.zero_le _)
  refine ⟨{ regex with marks := marks' }, ?_⟩
  rw [regexFindN, if_neg (by simp [ok])]
  exact passed

theorem regexReplaceN_replaced (ok : regex.error = .ok) (ready : Ready regex.program regex.marks)
    (uses : Uses regex used) (text : List Char) (replacement : List UInt8)
    (output : Option (List UInt8)) (capacity limit : Int)
    (room : ∀ buffer, output = some buffer → capacity ≤ (buffer.length : Int)) :
    ∃ after, Uses regex after ∧
      regexReplaceN used (encode text) replacement output capacity limit =
        some (replaced after (encode text) replacement (allMatches regex (encode text)) output
          capacity limit) := by
  obtain ⟨marks, isUsed, ready'⟩ := uses.ready ready
  have usedOk : used.error = .ok := by
    rw [isUsed]
    exact ok
  unfold regexReplaceN replaced
  by_cases refused : capacity < 0 ∨ limit < -1
  · simp only [if_pos (Or.inr refused), if_pos refused]
    exact ⟨used, uses, rfl⟩
  have accepted : ¬(used.error ≠ .ok ∨ capacity < 0 ∨ limit < -1) := by
    simp only [usedOk, ne_eq, not_true_eq_false, false_or]
    exact refused
  simp only [if_neg accepted, if_neg refused]
  have inOrder : InOrder (encode text).length 0 (allMatches regex (encode text)) :=
    matchList_inOrder ok ready _ (Nat.le_refl 0) (Nat.zero_le _)
  have needed := @overRanges_needed _ replacement _ (inOrder.limited limit 0)
  obtain ⟨marks', passed, _⟩ := @replaceLoop_eq regex text _ ok ready limit (sizeBody replacement)
    ((encode text).length + 2) 0 0 0 0 marks ready' (by omega) (Nat.zero_le _)
  rw [← isUsed] at passed
  have isAfter := replaceLoop_uses uses passed
  rw [← allMatches] at passed
  rw [passed]
  simp only [Option.bind_eq_bind, Option.bind_some]
  rw [needed]
  generalize isResult : replaceAll (encode text) replacement
    (limited limit 0 (allMatches regex (encode text))) = result
  by_cases fits : (result.length : Int) ≤ i64Max
  · rw [show bounded result.length = some (result.length : Int) from if_pos fits]
    cases output with
    | none => exact ⟨_, isAfter, rfl⟩
    | some buffer =>
      dsimp only [Option.map_some]
      by_cases small : (result.length : Int) = i64Max ∨ capacity ≤ result.length
      · have notStored : stored result capacity buffer = buffer := if_neg (by omega)
        rw [if_pos small, notStored]
        exact ⟨_, isAfter, rfl⟩
      · have large := room buffer rfl
        have isStored : stored result capacity buffer =
            result ++ 0 :: buffer.drop (result.length + 1) := if_pos (by omega)
        rw [if_neg small, isStored]
        exact writeReplaced_eq ok ready isAfter text replacement buffer limit _ isResult
          (by omega)
  · have notStored (buffer : List UInt8) : stored result capacity buffer = buffer :=
      if_neg (by omega)
    rw [show bounded result.length = none from if_neg fits]
    refine ⟨_, isAfter, ?_⟩
    cases output with
    | none => rfl
    | some buffer => rw [Option.map_some, notStored]

/-- `RegexReplaceN` replaces what the iterator goes through, up to the limit,
and writes the result only where it fits. -/
theorem regexReplaceN_exact {memory : Memory} {pattern : List UInt8} {regex used : CRegex}
    (compiled : regexCompileN memory pattern = some (.returned regex)) (ok : regex.error = .ok)
    (uses : Uses regex used) (text : List Char) :
    ∃ ranges, InOrder (encode text).length 0 ranges ∧
      (∀ item, ∃ after, (regexFindN used item (encode text) 0).bind
        (traverse ((encode text).length + 2)) = some (after, ranges)) ∧
      ∀ replacement output capacity limit,
        (∀ buffer, output = some buffer → capacity ≤ (buffer.length : Int)) →
        ∃ after, Uses regex after ∧
          regexReplaceN used (encode text) replacement output capacity limit =
            some (replaced after (encode text) replacement ranges output capacity limit) := by
  obtain ⟨_, ready, _⟩ := regexCompileN_denotes compiled ok
  have inOrder : InOrder (encode text).length 0 (allMatches regex (encode text)) :=
    matchList_inOrder ok ready _ (Nat.le_refl 0) (Nat.zero_le _)
  exact ⟨allMatches regex (encode text), inOrder, regexFindN_matches ok ready uses text,
    regexReplaceN_replaced ok ready uses text⟩

/-- Over the pattern `ab|b`, with a replacement that names the match. -/
theorem regexReplaceN_exact_alternation :
    ∃ regex, regexCompileN .given [0x61, 0x62, 0x7C, 0x62] = some (.returned regex) ∧
      regex.error = .ok ∧ ∀ text, ∃ ranges, InOrder (encode text).length 0 ranges ∧
        (∀ item, ∃ after, (regexFindN regex item (encode text) 0).bind
          (traverse ((encode text).length + 2)) = some (after, ranges)) ∧
        ∃ after, regexReplaceN regex (encode text) [0x3C, 0x24, 0x30] (some [0, 0, 0, 0]) 4 1 =
          some (replaced after (encode text) [0x3C, 0x24, 0x30] ranges (some [0, 0, 0, 0]) 4 1) := by
  obtain ⟨regex, compiled, ok⟩ := regexCompileN_returned .given [0x61, 0x62, 0x7C, 0x62] .ok
    (by decide +kernel)
  refine ⟨regex, compiled, ok, fun text => ?_⟩
  obtain ⟨ranges, inOrder, found, replaces⟩ := regexReplaceN_exact compiled ok Uses.none text
  have room (buffer : List UInt8) (isBuffer : some [(0 : UInt8), 0, 0, 0] = some buffer) :
      (4 : Int) ≤ buffer.length := by
    cases isBuffer
    decide
  obtain ⟨after, _, isReplaced⟩ := replaces [0x3C, 0x24, 0x30] (some [0, 0, 0, 0]) 4 1 room
  exact ⟨ranges, inOrder, found, after, isReplaced⟩

end

end Aholyc.Regex
