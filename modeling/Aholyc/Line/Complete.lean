import Aholyc.Lib.CommonPrefix
import Aholyc.Line.Edit

/-!
# Completion (lib/line/line.hc)

One Tab inserts what all matching candidates have in common, but of the first one only
128 bytes are kept. So a Tab is exact if what they have in common is shorter, or ends
just there, or has been typed already; else it may end inside of a code point, and no
further Tab gets beyond these bytes.
-/

namespace Aholyc.Line

open Aholyc.Lib
open Aholyc.Text (utf8)

/-! ## The source -/

def compCapacity : Nat := 128

/-- What a Tab keeps of the candidates; `compText` are the `comp_stored` bytes of the first one. -/
structure CComp where
  compStart : Nat
  compCount : Nat
  compFirst : Nat
  compPrefix : Nat
  compText : Bytes

inductive CompCall where
  | add (text : Option Bytes)
  | compFrom (place : Int)

def lineCompWord (line : CLine) (comp : CComp) : Bytes :=
  (line.buffer.take line.cursor).drop comp.compStart

def lineCompFrom (line : CLine) (start : Int) (comp : CComp) : CComp :=
  if start ≥ 0 ∧ start ≤ line.cursor then { comp with compStart := start.toNat } else comp

def lineCompAdd (line : CLine) (text : Option Bytes) (comp : CComp) : CComp :=
  match text with
  | none => comp
  | some candidate =>
    if !(lineCompWord line comp).isPrefixOf candidate then comp
    else if comp.compCount + 1 = 1 then
      { comp with
        compCount := comp.compCount + 1
        compFirst := candidate.length
        compText := candidate.take compCapacity
        compPrefix := (candidate.take compCapacity).length }
    else
      { comp with
        compCount := comp.compCount + 1
        compPrefix := (commonPrefix (comp.compText.take comp.compPrefix) candidate).length }

def CompCall.run (line : CLine) (comp : CComp) : CompCall → CComp
  | .add text => lineCompAdd line text comp
  | .compFrom place => lineCompFrom line place comp

def compStartOf (line : CLine) : Nat :=
  let start := lineWordLeft line line.cursor
  upWhile (· == blank) line.buffer (line.cursor - start) start

/-- The measuring pass; the common prefix is never cut inside of a code point of `compText`. -/
def measured (calls : List CompCall) (line : CLine) : CComp :=
  let comp := calls.foldl (CompCall.run line) ⟨compStartOf line, 0, 0, 0, []⟩
  { comp with compPrefix := utf8.backTo comp.compText comp.compPrefix }

/-- What the callback does, if there is one. The second call, which lists the candidates, does not
change the line. -/
def lineComplete (callback : Option (List CompCall)) (line : CLine) : Option CLine :=
  match callback with
  | none => some line
  | some calls =>
    let comp := measured calls line
    let word := line.cursor - comp.compStart
    if comp.compCount = 0 then some line
    else if comp.compPrefix > word then
      (lineInsert ((comp.compText.take comp.compPrefix).drop word) line).bind fun line =>
        if comp.compCount = 1 ∧ comp.compPrefix = comp.compFirst then lineInsert [blank] line
        else some line
    else if comp.compCount = 1 then lineInsert [blank] line
    else some line

/-- Whether the Tab comes to `LineInsert (line, " ", 1)`. -/
def addsBlank (calls : List CompCall) (line : CLine) : Bool :=
  let comp := measured calls line
  let word := line.cursor - comp.compStart
  decide (comp.compCount = 1) &&
    (decide (comp.compPrefix ≤ word) || decide (comp.compPrefix = comp.compFirst))

/-! ## What it is for -/

def offering (candidates : List Bytes) : List CompCall :=
  candidates.map fun candidate => .add (some candidate)

/-- The blank-delimited argument at the cursor, as far as it has been typed. -/
def currentWord (line : CLine) : Bytes := (line.buffer.take line.cursor).rtakeWhile (· != blank)

def wordStart (line : CLine) : Nat :=
  ((line.buffer.take line.cursor).rdropWhile (· != blank)).length

/-- The cursor is behind an argument and a blank. -/
def behindBlank (line : CLine) : Bool :=
  let front := line.buffer.take line.cursor
  front.getLast? == some blank && front.any (· != blank)

/-- The last argument in front of the cursor and the blanks behind it. -/
def lastArgument (line : CLine) : Bytes :=
  let front := line.buffer.take line.cursor
  front.drop ((front.rdropWhile (· == blank)).rdropWhile (· != blank)).length

def matching (candidates : List Bytes) (line : CLine) : List Bytes :=
  candidates.filter fun candidate => (currentWord line).isPrefixOf candidate

def shared : List Bytes → Bytes
  | [] => []
  | first :: others => commonWith first others

/-- The longest sequence of code points with which all begin. -/
structure LongestShared (texts : List Bytes) (text : Bytes) : Prop where
  isText : utf8.Text text
  common : ∀ other ∈ texts, text <+: other
  longest : ∀ longer, utf8.Text longer → (∀ other ∈ texts, longer <+: other) → longer <+: text

/-- What one Tab may do: it inserts code points that are common to the matching candidates, and a
blank behind a word that is the only one of them. -/
def SafeTab (candidates : List Bytes) (line line' : CLine) : Prop :=
  ∃ front back inserted, Shows line front back ∧
    Shows line' (front ++ inserted ++
      if addsBlank (offering candidates) line then [blank] else []) back ∧
    (∀ candidate ∈ matching candidates line, currentWord line ++ inserted <+: candidate) ∧
    (matching candidates line = [] → inserted = []) ∧
    utf8.Text (front ++ inserted) ∧
    (addsBlank (offering candidates) line = true →
      matching candidates line = [currentWord line ++ inserted])

def lineTabs (candidates : List Bytes) : Nat → CLine → Option CLine
  | 0, line => some line
  | n + 1, line => (lineComplete (some (offering candidates)) line).bind (lineTabs candidates n)

/-- The only matching candidate and a blank, or what several have in common. -/
def goalOf (texts : List Bytes) (text : Bytes) : Bytes :=
  if texts.length = 1 then text ++ [blank] else text

def Completes (candidates : List Bytes) (line : CLine) : Prop :=
  ∃ n last, lineTabs candidates n line = some last ∧
    (∀ i < n, ∀ line₁ line₂, lineTabs candidates i line = some line₁ →
      lineComplete (some (offering candidates)) line₁ = some line₂ →
        wordStart line₁ = wordStart line ∧ SafeTab candidates line₁ line₂) ∧
    ∃ front back text, Shows line front back ∧ LongestShared (matching candidates line) text ∧
      Shows last (front.take (wordStart line) ++ goalOf (matching candidates line) text) back

structure ExactTabs (candidates : List Bytes) (line : CLine) : Prop where
  safe : ∃ line', lineComplete (some (offering candidates)) line = some line' ∧
    SafeTab candidates line line'
  completes : matching candidates line ≠ [] → Completes candidates line

/-! ## The measuring pass -/

structure Measured (comp : CComp) (first : Bytes) (others : List Bytes) : Prop where
  count : comp.compCount = others.length + 1
  compFirst : comp.compFirst = first.length
  compText : comp.compText = first.take compCapacity
  compPrefix : comp.compPrefix = (commonWith (first.take compCapacity) others).length

def MeasuredAll (comp : CComp) : List Bytes → Prop
  | [] => comp.compCount = 0
  | first :: others => Measured comp first others

variable {line : CLine} {comp : CComp} {first : Bytes} {others texts candidates : List Bytes}

theorem Measured.text_eq (isMeasured : Measured comp first others) :
    comp.compText.take comp.compPrefix = commonWith (first.take compCapacity) others := by
  have cut := commonWith_prefix (first.take compCapacity) others
  rw [isMeasured.compText, isMeasured.compPrefix, ← List.prefix_iff_eq_take.mp cut]

variable {candidate word text : Bytes}

theorem add_first (none : comp.compCount = 0) (matches_ : lineCompWord line comp <+: candidate) :
    Measured (lineCompAdd line (some candidate) comp) candidate [] ∧
      (lineCompAdd line (some candidate) comp).compStart = comp.compStart := by
  unfold lineCompAdd
  dsimp only
  rw [List.isPrefixOf_iff_prefix.mpr matches_, if_neg (by decide : ¬ (!true) = true),
    if_pos (by omega : comp.compCount + 1 = 1)]
  refine ⟨⟨?_, rfl, rfl, rfl⟩, rfl⟩
  dsimp only
  rw [none]
  rfl

theorem Measured.add (isMeasured : Measured comp first others)
    (matches_ : lineCompWord line comp <+: candidate) :
    Measured (lineCompAdd line (some candidate) comp) first (others ++ [candidate]) ∧
      (lineCompAdd line (some candidate) comp).compStart = comp.compStart := by
  have count := isMeasured.count
  unfold lineCompAdd
  dsimp only
  rw [List.isPrefixOf_iff_prefix.mpr matches_, if_neg (by decide : ¬ (!true) = true),
    if_neg (by omega : ¬ comp.compCount + 1 = 1), isMeasured.text_eq]
  refine ⟨⟨?_, isMeasured.compFirst, isMeasured.compText, ?_⟩, rfl⟩
  · dsimp only
    rw [count, List.length_append, List.length_singleton]
  · unfold commonWith
    rw [List.foldl_append]
    rfl

theorem lineCompAdd_other (other : ¬ lineCompWord line comp <+: candidate) :
    lineCompAdd line (some candidate) comp = comp := by
  unfold lineCompAdd
  dsimp only
  have no : (lineCompWord line comp).isPrefixOf candidate = false := by
    rw [Bool.eq_false_iff]
    intro isPrefix
    exact other (List.isPrefixOf_iff_prefix.mp isPrefix)
  rw [no]
  rfl

theorem MeasuredAll.add (isMeasured : MeasuredAll comp texts)
    (matches_ : lineCompWord line comp <+: candidate) :
    MeasuredAll (lineCompAdd line (some candidate) comp) (texts ++ [candidate]) ∧
      (lineCompAdd line (some candidate) comp).compStart = comp.compStart := by
  cases texts with
  | nil => exact add_first isMeasured matches_
  | cons first others => exact Measured.add isMeasured matches_

/-- The candidates that start with the word are measured. -/
theorem offering_spec (isWord : lineCompWord line comp = word) (isMeasured : MeasuredAll comp texts) :
    MeasuredAll ((offering candidates).foldl (CompCall.run line) comp)
      (texts ++ candidates.filter fun candidate => word.isPrefixOf candidate) ∧
    ((offering candidates).foldl (CompCall.run line) comp).compStart = comp.compStart := by
  induction candidates generalizing comp texts with
  | nil =>
    rw [List.filter_nil, List.append_nil]
    exact ⟨isMeasured, rfl⟩
  | cons candidate candidates ih =>
    have isStep : (offering (candidate :: candidates)).foldl (CompCall.run line) comp =
        (offering candidates).foldl (CompCall.run line)
          (lineCompAdd line (some candidate) comp) := rfl
    rw [isStep]
    by_cases isMatch : word <+: candidate
    · rw [← isWord] at isMatch
      obtain ⟨added, start⟩ := isMeasured.add isMatch
      have isWord' : lineCompWord line (lineCompAdd line (some candidate) comp) = word := by
        unfold lineCompWord at isWord ⊢
        rw [start, isWord]
      have rest := ih isWord' added
      rw [isWord] at isMatch
      rw [List.filter_cons_of_pos (List.isPrefixOf_iff_prefix.mpr isMatch), List.append_cons]
      exact ⟨rest.1, rest.2.trans start⟩
    · have no : ¬ word.isPrefixOf candidate = true := by
        rwa [List.isPrefixOf_iff_prefix]
      rw [← isWord] at isMatch
      rw [lineCompAdd_other isMatch, List.filter_cons_of_neg no]
      exact ih isWord isMeasured

/-! ## The word -/

theorem drop_wordStart (line : CLine) :
    (line.buffer.take line.cursor).drop (wordStart line) = currentWord line := by
  have parts : (line.buffer.take line.cursor).rdropWhile (· != blank) ++ currentWord line =
      line.buffer.take line.cursor := List.rdropWhile_append_rtakeWhile
  conv_lhs => rw [← parts]
  exact List.drop_left

theorem upWhile_other {test : UInt8 → Bool} {buffer : Bytes} {pos : Nat}
    (other : buffer[pos]?.any test = false) (left : Nat) : upWhile test buffer left pos = pos := by
  cases left with
  | zero => rfl
  | succ left => rw [upWhile, other, if_neg Bool.false_ne_true]

theorem upWhile_all {test : UInt8 → Bool} {buffer : Bytes} {left pos : Nat}
    (all : ∀ i < pos + left, buffer[i]?.any test = true) :
    upWhile test buffer left pos = pos + left := by
  induction left generalizing pos with
  | zero => rfl
  | succ left ih =>
    rw [upWhile, if_pos (all pos (by omega)), ih (by rwa [Nat.add_right_comm])]
    omega

section Word

variable (inside : line.cursor ≤ line.buffer.length)

include inside

theorem lineWordLeft_eq : lineWordLeft line line.cursor =
    (((line.buffer.take line.cursor).rdropWhile (· == blank)).rdropWhile (· != blank)).length := by
  have isPrefix : (line.buffer.take line.cursor).rdropWhile (· == blank) <+: line.buffer :=
    (List.rdropWhile_prefix _ _).trans (List.take_prefix _ _)
  unfold lineWordLeft
  rw [downWhile_eq _ _ _ inside, downWhile_eq _ _ _ isPrefix.length_le,
    ← List.prefix_iff_eq_take.mp isPrefix]

theorem compStartOf_blank (blanks : ∀ byte ∈ line.buffer.take line.cursor, byte = blank) :
    compStartOf line = line.cursor := by
  have nothing : (line.buffer.take line.cursor).rdropWhile (· == blank) = [] := by
    rw [List.rdropWhile_eq_nil_iff]
    simpa using blanks
  have atStart : lineWordLeft line line.cursor = 0 := by
    rw [lineWordLeft_eq inside, nothing, List.rdropWhile_nil, List.length_nil]
  unfold compStartOf
  dsimp only
  rw [atStart, upWhile_all, Nat.zero_add, Nat.sub_zero]
  intro i less
  have isByte : line.buffer[i]? = some line.buffer[i] := List.getElem?_eq_getElem (by omega)
  have member : line.buffer[i] ∈ line.buffer.take line.cursor := by
    apply List.mem_of_getElem? (i := i)
    rw [List.getElem?_take_of_lt (by omega), isByte]
  rw [isByte, Option.any_some, blanks _ member]
  rfl

theorem compStartOf_argument (argument : ∃ byte ∈ line.buffer.take line.cursor, byte ≠ blank) :
    compStartOf line = (((line.buffer.take line.cursor).rdropWhile (· == blank)).rdropWhile
      (· != blank)).length := by
  have left := lineWordLeft_eq inside
  have cut : (line.buffer.take line.cursor).rdropWhile (· == blank) <+: line.buffer :=
    (List.rdropWhile_prefix _ _).trans (List.take_prefix _ _)
  have some_ : (line.buffer.take line.cursor).rdropWhile (· == blank) ≠ [] := by
    intro nothing
    obtain ⟨byte, member, other⟩ := argument
    exact other (by simpa using List.rdropWhile_eq_nil_iff.mp nothing byte member)
  have last := List.rdropWhile_last_not (· == blank) (line.buffer.take line.cursor) some_
  generalize (line.buffer.take line.cursor).rdropWhile (· == blank) = upTo at *
  have parts : upTo.rdropWhile (· != blank) ++ upTo.rtakeWhile (· != blank) = upTo :=
    List.rdropWhile_append_rtakeWhile
  have letters : ∀ byte ∈ upTo.rtakeWhile (· != blank), byte ≠ blank := by
    intro byte member
    simpa using List.mem_rtakeWhile_imp member
  cases isWord : upTo.rtakeWhile (· != blank) with
  | nil =>
    rw [isWord, List.append_nil, List.rdropWhile_eq_self_iff] at parts
    have isBlank := parts some_
    simp only [bne_iff_ne, ne_eq, not_not] at isBlank
    simp [isBlank] at last
  | cons byte rest =>
    rw [isWord] at parts letters
    obtain ⟨behind, isBuffer⟩ := cut
    have isByte : line.buffer[(upTo.rdropWhile (· != blank)).length]? = some byte := by
      rw [← isBuffer, ← parts, List.append_assoc]
      simp [parts]
    have other := letters byte List.mem_cons_self
    unfold compStartOf
    dsimp only
    rw [left]
    apply upWhile_other
    rw [isByte, Option.any_some]
    exact beq_eq_false_iff_ne.mpr other

theorem wordStart_blank (isLast : (line.buffer.take line.cursor).getLast? = some blank) :
    wordStart line = line.cursor := by
  have whole : (line.buffer.take line.cursor).rdropWhile (· != blank) =
      line.buffer.take line.cursor := by
    rw [List.rdropWhile_eq_self_iff]
    intro some_
    rw [List.getLast?_eq_some_getLast some_, Option.some.injEq] at isLast
    simp [isLast]
  unfold wordStart
  rw [whole, List.length_take]
  omega

theorem compStartOf_eq (atWord : behindBlank line = false) : compStartOf line = wordStart line := by
  by_cases argument : ∃ byte ∈ line.buffer.take line.cursor, byte ≠ blank
  · have isAny : (line.buffer.take line.cursor).any (· != blank) = true := by
      simpa using argument
    unfold behindBlank at atWord
    dsimp only at atWord
    rw [isAny, Bool.and_true, beq_eq_false_iff_ne] at atWord
    have whole : (line.buffer.take line.cursor).rdropWhile (· == blank) =
        line.buffer.take line.cursor := by
      rw [List.rdropWhile_eq_self_iff]
      intro some_
      rw [List.getLast?_eq_some_getLast some_, ne_eq, Option.some.injEq] at atWord
      simpa using atWord
    rw [compStartOf_argument inside argument, whole]
    rfl
  · have blanks : ∀ byte ∈ line.buffer.take line.cursor, byte = blank := by
      intro byte member
      by_contra other
      exact argument ⟨byte, member, other⟩
    rw [compStartOf_blank inside blanks]
    cases isFront : line.buffer.take line.cursor with
    | nil =>
      have none := congrArg List.length isFront
      rw [List.length_take, List.length_nil] at none
      unfold wordStart
      rw [isFront, List.rdropWhile_nil, List.length_nil]
      omega
    | cons byte rest =>
      symm
      apply wordStart_blank inside
      have some_ : line.buffer.take line.cursor ≠ [] := by simp [isFront]
      rw [List.getLast?_eq_some_getLast some_, blanks _ (List.getLast_mem some_)]

theorem compStartOf_inside (less : wordStart line < line.cursor) :
    compStartOf line = wordStart line := by
  apply compStartOf_eq inside
  by_contra behind
  rw [Bool.not_eq_false] at behind
  unfold behindBlank at behind
  dsimp only at behind
  rw [Bool.and_eq_true, beq_iff_eq] at behind
  have atEnd := wordStart_blank inside behind.1
  omega

end Word

theorem measured_spec (atWord : compStartOf line = wordStart line) (candidates : List Bytes) :
    (measured (offering candidates) line).compStart = wordStart line ∧
    (matching candidates line = [] → (measured (offering candidates) line).compCount = 0) ∧
    ∀ first others, matching candidates line = first :: others →
      (measured (offering candidates) line).compCount = others.length + 1 ∧
      (measured (offering candidates) line).compFirst = first.length ∧
      (measured (offering candidates) line).compText = first.take compCapacity ∧
      (measured (offering candidates) line).compPrefix = utf8.backTo (first.take compCapacity)
        (min compCapacity (shared (matching candidates line)).length) := by
  have isMeasured : MeasuredAll (⟨compStartOf line, 0, 0, 0, []⟩ : CComp) [] := rfl
  have isWord : lineCompWord line ⟨compStartOf line, 0, 0, 0, []⟩ = currentWord line := by
    rw [atWord]
    exact drop_wordStart line
  have spec : MeasuredAll ((offering candidates).foldl (CompCall.run line) _)
      (matching candidates line) ∧ _ := offering_spec isWord isMeasured
  refine ⟨spec.2.trans atWord, ?_, ?_⟩
  · intro none
    rw [none] at spec
    exact spec.1
  · intro first others isMatching
    rw [isMatching] at spec ⊢
    refine ⟨spec.1.count, spec.1.compFirst, spec.1.compText, ?_⟩
    unfold measured
    dsimp only
    rw [spec.1.compText, spec.1.compPrefix, commonWith_take, List.length_take]
    rfl

/-! ## What the matching candidates share -/

theorem mem_matching (member : candidate ∈ matching candidates line) :
    candidate ∈ candidates ∧ currentWord line <+: candidate := by
  unfold matching at member
  rw [List.mem_filter, List.isPrefixOf_iff_prefix] at member
  exact member

theorem word_prefix (isMatching : matching candidates line = first :: others) :
    currentWord line <+: first := by
  have member : first ∈ matching candidates line := by
    rw [isMatching]
    exact List.mem_cons_self
  exact (mem_matching member).2

theorem prefix_shared_iff :
    text <+: shared (first :: others) ↔ ∀ other ∈ first :: others, text <+: other := by
  unfold shared
  rw [prefix_commonWith_iff, List.forall_mem_cons]

theorem shared_prefix : shared (first :: others) <+: first := commonWith_prefix first others

theorem LongestShared.unique {texts : List Bytes} {other : Bytes}
    (longest : LongestShared texts text) (longest' : LongestShared texts other) : text = other :=
  (longest'.longest text longest.isText longest.common).eq_of_length_le
    (longest.longest other longest'.isText longest'.common).length_le

/-- The longest shared text ends at the last boundary. -/
theorem longestShared (isFirst : utf8.Text first) :
    LongestShared (first :: others)
      (first.take (utf8.backTo first (shared (first :: others)).length)) := by
  have isPrefix : shared (first :: others) <+: first := shared_prefix
  have boundary := isFirst.backTo_boundary isPrefix.length_le
  have back := Pieces.backTo_le (P := utf8) first (shared (first :: others)).length
  refine ⟨boundary.front, ?_, ?_⟩
  · rw [← prefix_shared_iff]
    have isCut : first.take _ <+: first.take _ := List.take_prefix_take_left back
    rwa [← List.prefix_iff_eq_take.mp isPrefix] at isCut
  intro longer isText common
  rw [← prefix_shared_iff] at common
  have inFirst := common.trans isPrefix
  have isCut := List.prefix_iff_eq_take.mp inFirst
  have isBoundary : utf8.Boundary first longer.length := by
    obtain ⟨rest, isRest⟩ := inFirst
    rw [← isRest] at isFirst ⊢
    exact Pieces.boundary_append isText (isText.rest isFirst)
  have le := isFirst.le_backTo isBoundary common.length_le
  rw [isCut]
  exact List.take_prefix_take_left le

/-! ## One Tab -/

theorem backTo_end {place : Nat} (atEnd : text.length ≤ place) :
    utf8.backTo text place = place := by
  cases place with
  | zero => rfl
  | succ place => rw [Pieces.backTo, List.getElem?_eq_none atEnd, Option.any_none, if_neg (by decide)]

theorem backTo_congr {other : Bytes} {place : Nat} (same : ∀ i ≤ place, text[i]? = other[i]?) :
    utf8.backTo text place = utf8.backTo other place := by
  induction place with
  | zero => rfl
  | succ place ih =>
    rw [Pieces.backTo, Pieces.backTo, same _ (Nat.le_refl _), ih fun i le => same i (by omega)]

def reach (candidates : List Bytes) (line : CLine) : Nat :=
  (measured (offering candidates) line).compPrefix

theorem reach_eq (atWord : compStartOf line = wordStart line)
    (isMatching : matching candidates line = first :: others) :
    reach candidates line = utf8.backTo (first.take compCapacity)
      (min compCapacity (shared (first :: others)).length) := by
  have spec := ((measured_spec atWord candidates).2.2 first others isMatching).2.2.2
  rwa [isMatching] at spec

theorem reach_short (atWord : compStartOf line = wordStart line)
    (isMatching : matching candidates line = first :: others)
    (short : (shared (first :: others)).length < compCapacity) :
    reach candidates line = utf8.backTo first (shared (first :: others)).length := by
  rw [reach_eq atWord isMatching, Nat.min_eq_right (Nat.le_of_lt short)]
  apply backTo_congr
  intro i le
  rw [List.getElem?_take, if_pos (by omega)]

theorem reach_long (atWord : compStartOf line = wordStart line)
    (isMatching : matching candidates line = first :: others)
    (long : compCapacity ≤ (shared (first :: others)).length) :
    reach candidates line = compCapacity := by
  rw [reach_eq atWord isMatching, Nat.min_eq_left long]
  apply backTo_end
  rw [List.length_take]
  exact Nat.min_le_left _ _

theorem reach_le (atWord : compStartOf line = wordStart line)
    (isMatching : matching candidates line = first :: others) :
    reach candidates line ≤ (shared (first :: others)).length := by
  rw [reach_eq atWord isMatching]
  exact (Pieces.backTo_le _ _).trans (Nat.min_le_right _ _)

section Tab

variable {front back : Bytes} (atWord : compStartOf line = wordStart line)
  (shows_ : Shows line front back) (isFront : utf8.Text front) (isBack : utf8.Text back)
  (isMatching : matching candidates line = first :: others)

include shows_

theorem Shows.inside : line.cursor ≤ line.buffer.length := by
  have isLength := shows_.length
  have isCursor := shows_.cursor
  have room := shows_.room
  unfold CLine.capacity at room
  omega

theorem Shows.front_eq : line.buffer.take line.cursor = front := by
  have isLength := shows_.length
  have whole := congrArg (List.take line.cursor) shows_.text
  rwa [List.take_take, Nat.min_eq_left (by rw [shows_.cursor]; omega), shows_.cursor,
    List.take_left, ← shows_.cursor] at whole

theorem Shows.currentWord_eq : currentWord line = front.drop (wordStart line) := by
  rw [← drop_wordStart, shows_.front_eq]

theorem Shows.start_le : wordStart line ≤ front.length := by
  have isPrefix : (line.buffer.take line.cursor).rdropWhile (· != blank) <+: _ :=
    List.rdropWhile_prefix _ _
  rw [shows_.front_eq] at isPrefix
  unfold wordStart
  rw [shows_.front_eq]
  exact isPrefix.length_le

theorem Shows.word_length : (currentWord line).length = line.cursor - wordStart line := by
  rw [shows_.currentWord_eq, List.length_drop, shows_.cursor]

include atWord isMatching in
theorem Shows.tab
    (room : line.length + (first.length - (currentWord line).length) + 2 ≤ line.capacity) :
    ∃ line', lineComplete (some (offering candidates)) line = some line' ∧ Edited line line' ∧
      Shows line' (front ++ (first.take (reach candidates line)).drop (currentWord line).length ++
        if addsBlank (offering candidates) line then [blank] else []) back ∧
      (reach candidates line ≤ (currentWord line).length → others ≠ [] → line' = line) ∧
      (addsBlank (offering candidates) line = true ↔ others = [] ∧
        (reach candidates line ≤ (currentWord line).length ∨
          reach candidates line = first.length)) := by
  have start := (measured_spec atWord candidates).1
  obtain ⟨count, compFirst, compText, _⟩ := (measured_spec atWord candidates).2.2 _ _ isMatching
  have isLength := shows_.word_length
  have isReach : (measured (offering candidates) line).compPrefix = reach candidates line := rfl
  have le := (reach_le atWord isMatching).trans shared_prefix.length_le
  have small : reach candidates line ≤ compCapacity := by
    rw [reach_eq atWord isMatching]
    exact (Pieces.backTo_le _ _).trans (Nat.min_le_left _ _)
  have single_iff : others.length + 1 = 1 ↔ others = [] := by
    rw [← List.length_eq_zero_iff]
    omega
  have adds_iff : addsBlank (offering candidates) line = true ↔ others = [] ∧
      (reach candidates line ≤ (currentWord line).length ∨
        reach candidates line = first.length) := by
    unfold addsBlank
    dsimp only
    rw [Bool.and_eq_true, Bool.or_eq_true, decide_eq_true_iff, decide_eq_true_iff,
      decide_eq_true_iff, count, single_iff, compFirst, start, isReach, isLength]
  have inserted_length : ((first.take (reach candidates line)).drop
      (currentWord line).length).length = reach candidates line - (currentWord line).length := by
    rw [List.length_drop, List.length_take, Nat.min_eq_left le]
  have isCut : (first.take compCapacity).take (reach candidates line) =
      first.take (reach candidates line) := by
    rw [List.take_take, Nat.min_eq_left small]
  -- behind what is inserted there is still room for the blank
  have blanked {line' : CLine} {front' : Bytes} (isShown : Shows line' front' back)
      (roomy : line'.length + 2 ≤ line'.capacity) :
      ∃ line'', lineInsert [blank] line' = some line'' ∧ Edited line' line'' ∧
        Shows line'' (front' ++ [blank]) back := by
    obtain ⟨line'', isInserted, edited, shown, _⟩ := isShown.insert [blank]
    exact ⟨line'', isInserted, edited, shown roomy⟩
  unfold lineComplete
  dsimp only
  rw [if_neg (by omega : ¬ (measured (offering candidates) line).compCount = 0), start, compFirst,
    compText, count, isReach, ← isLength, isCut]
  simp only [single_iff]
  by_cases longer : reach candidates line > (currentWord line).length
  · rw [if_pos longer]
    obtain ⟨next, isInserted, edited, shown, _⟩ :=
      shows_.insert ((first.take (reach candidates line)).drop (currentWord line).length)
    rw [inserted_length] at shown
    have isShown := shown (by omega)
    have next_length := isShown.length
    have line_length := shows_.length
    have roomy : next.length + 2 ≤ next.capacity := by
      rw [edited.capacity, next_length, List.length_append, inserted_length]
      omega
    rw [isInserted, Option.bind_some]
    by_cases single : others = [] ∧ reach candidates line = first.length
    · obtain ⟨last, isLast, more, last_shown⟩ := blanked isShown roomy
      rw [if_pos single, if_pos (adds_iff.mpr ⟨single.1, Or.inr single.2⟩)]
      exact ⟨last, isLast, edited.trans more, last_shown, fun short => absurd short (by omega),
        adds_iff⟩
    · have no : ¬ addsBlank (offering candidates) line = true := by
        rw [adds_iff]
        rintro ⟨isSingle, short | isWhole⟩
        · omega
        · exact single ⟨isSingle, isWhole⟩
      rw [if_neg single, if_neg no, List.append_nil]
      exact ⟨next, rfl, edited, isShown, fun short => absurd short (by omega), adds_iff⟩
  · have nothing : (first.take (reach candidates line)).drop (currentWord line).length = [] := by
      apply List.eq_nil_of_length_eq_zero
      omega
    rw [if_neg longer, nothing, List.append_nil]
    by_cases single : others = []
    · obtain ⟨last, isLast, edited, last_shown⟩ := blanked shows_ (by omega)
      rw [if_pos single, if_pos (adds_iff.mpr ⟨single, Or.inl (by omega)⟩)]
      exact ⟨last, isLast, edited, last_shown, fun _ others_ => absurd single others_, adds_iff⟩
    · have no : ¬ addsBlank (offering candidates) line = true := by
        rw [adds_iff]
        exact fun both => single both.1
      rw [if_neg single, if_neg no, List.append_nil]
      exact ⟨line, rfl, Edited.refl line, shows_, fun _ _ => rfl, adds_iff⟩

include atWord isFront isBack

theorem Shows.start_boundary : utf8.Text (front.take (wordStart line)) ∧
    utf8.Text (currentWord line) := by
  have isText := isFront.append isBack
  have isLength := shows_.length
  have isCursor := shows_.cursor
  have le := shows_.start_le
  have inside : line.cursor ≤ (front ++ back).length := by
    rw [List.length_append]
    omega
  have left := shows_.wordLeft_boundary isText inside
  have isLeft := lineWordLeft_le line line.cursor
  have boundary : utf8.Boundary (front ++ back) (wordStart line) := by
    rw [← atWord]
    exact upWhile_boundary isText (by omega) shows_.bytes_eq left
  have start := boundary.front
  rw [List.take_append_of_le_length le] at start
  refine ⟨start, ?_⟩
  rw [shows_.currentWord_eq]
  rw [← List.take_append_drop (wordStart line) front] at isFront
  exact start.rest isFront

end Tab

/-! ## All Tabs -/

theorem completed_word (isWord : word <+: first) (p : Nat) :
    word ++ (first.take p).drop word.length = first.take (max word.length p) := by
  have isCut := List.prefix_iff_eq_take.mp isWord
  by_cases longer : word.length ≤ p
  · have front : (first.take p).take word.length = word := by
      rw [List.take_take, Nat.min_eq_left longer, ← isCut]
    have whole := List.take_append_drop word.length (first.take p)
    rw [front] at whole
    rw [Nat.max_eq_right longer, whole]
  · have nothing : (first.take p).drop word.length = [] := by
      rw [List.drop_eq_nil_iff, List.length_take]
      omega
    rw [nothing, List.append_nil, Nat.max_eq_left (by omega), ← isCut]

section Tabs

variable {front back : Bytes} (atWord : compStartOf line = wordStart line)
  (shows_ : Shows line front back) (isFront : utf8.Text front) (isBack : utf8.Text back)
  (isMatching : matching candidates line = first :: others)

include atWord shows_ isMatching

theorem Shows.completed
    (room : line.length + (first.length - (currentWord line).length) + 2 ≤ line.capacity) :
    ∃ line', lineComplete (some (offering candidates)) line = some line' ∧ Edited line line' ∧
      Shows line' (front.take (wordStart line) ++
        first.take (max (currentWord line).length (reach candidates line)) ++
          if addsBlank (offering candidates) line then [blank] else []) back := by
  obtain ⟨line', isTab, edited, shown, _⟩ := shows_.tab atWord isMatching room
  have isWord := word_prefix isMatching
  refine ⟨line', isTab, edited, ?_⟩
  have isFront : front = front.take (wordStart line) ++ currentWord line := by
    rw [shows_.currentWord_eq, List.take_append_drop]
  rw [isFront, List.append_assoc (front.take _), completed_word isWord] at shown
  exact shown

include isFront isBack

theorem exact_of_reach (isFirst : utf8.Text first)
    (room : line.length + (first.length - (currentWord line).length) + 2 ≤ line.capacity)
    (longest : LongestShared (first :: others) text)
    (isReach : text.length = max (currentWord line).length (reach candidates line)) :
    ExactTabs candidates line := by
  obtain ⟨line', isTab, _, shown, _, adds_iff⟩ := shows_.tab atWord isMatching room
  obtain ⟨line'', isTab', _, completed⟩ := shows_.completed atWord isMatching room
  rw [isTab] at isTab'
  cases isTab'
  obtain ⟨isStart, _⟩ := shows_.start_boundary atWord isFront isBack
  have isWord := word_prefix isMatching
  have isText : first.take (max (currentWord line).length (reach candidates line)) = text := by
    rw [← isReach]
    exact (List.prefix_iff_eq_take.mp (longest.common first List.mem_cons_self)).symm
  have isCompleted := completed_word isWord (reach candidates line)
  rw [isText] at isCompleted completed
  have isFront' : front = front.take (wordStart line) ++ currentWord line := by
    rw [shows_.currentWord_eq, List.take_append_drop]
  -- the only candidate is completed in full
  have isOnly (single : others = []) : first = text := by
    have whole := longest.longest first isFirst (by
      rw [single, List.forall_mem_singleton])
    exact whole.eq_of_length_le (longest.common first List.mem_cons_self).length_le
  have safe : SafeTab candidates line line' := by
    refine ⟨front, back, _, shows_, shown, ?_, ?_, ?_, ?_⟩
    · rw [isCompleted, isMatching]
      exact longest.common
    · intro none
      rw [none] at isMatching
      cases isMatching
    · rw [isFront', List.append_assoc, isCompleted]
      exact isStart.append longest.isText
    · intro adds
      have single := (adds_iff.mp adds).1
      rw [isCompleted, isMatching, single, isOnly single]
  refine ⟨⟨line', isTab, safe⟩, fun _ => ⟨1, line', ?_, ?_, front, back, text, shows_, ?_, ?_⟩⟩
  · unfold lineTabs
    rw [isTab]
    rfl
  · intro i isFirstTab line₁ line₂ isLine isNext
    have isZero : i = 0 := by omega
    rw [isZero] at isLine
    cases isLine
    rw [isTab] at isNext
    cases isNext
    exact ⟨rfl, safe⟩
  · rw [isMatching]
    exact longest
  · unfold goalOf
    rw [isMatching, List.length_cons]
    by_cases single : others = []
    · have adds : addsBlank (offering candidates) line = true := by
        rw [adds_iff]
        refine ⟨single, ?_⟩
        have whole := congrArg List.length (isOnly single)
        omega
      rw [if_pos adds] at completed
      have one : others.length + 1 = 1 := by
        rw [single]
        rfl
      rw [if_pos one, ← List.append_assoc]
      exact completed
    · have no : ¬ addsBlank (offering candidates) line = true := by
        rw [adds_iff]
        exact fun both => single both.1
      have several : ¬ others.length + 1 = 1 := by
        rw [← List.length_eq_zero_iff] at single
        omega
      rw [if_neg no, List.append_nil] at completed
      rw [if_neg several]
      exact completed

/-- A Tab that may not end inside of a code point reaches no more than what is shared. -/
theorem safe_reach {line' : CLine}
    (room : line.length + (first.length - (currentWord line).length) + 2 ≤ line.capacity)
    (longest : LongestShared (first :: others) text)
    (isTab : lineComplete (some (offering candidates)) line = some line')
    (safe : SafeTab candidates line line') :
    utf8.Text (first.take (max (currentWord line).length (reach candidates line))) ∧
    max (currentWord line).length (reach candidates line) ≤ text.length ∧
    (addsBlank (offering candidates) line = true →
      first.length ≤ max (currentWord line).length (reach candidates line)) := by
  obtain ⟨front', back', inserted, shows', shown', common, _, isText, only⟩ := safe
  obtain ⟨rfl, rfl⟩ := shows_.unique shows'
  obtain ⟨line'', isTab', _, shown, _⟩ := shows_.tab atWord isMatching room
  rw [isTab] at isTab'
  cases isTab'
  have same := (shown.unique shown').1
  rw [List.append_cancel_right_eq, List.append_cancel_left_eq] at same
  have isWord := word_prefix isMatching
  have isCompleted := completed_word isWord (reach candidates line)
  rw [same] at isCompleted
  rw [isCompleted, isMatching] at common only
  obtain ⟨isStart, _⟩ := shows_.start_boundary atWord isFront isBack
  have isFront' : front = front.take (wordStart line) ++ currentWord line := by
    rw [shows_.currentWord_eq, List.take_append_drop]
  have le := (reach_le atWord isMatching).trans shared_prefix.length_le
  have word_le := isWord.length_le
  have length : (first.take (max (currentWord line).length (reach candidates line))).length =
      max (currentWord line).length (reach candidates line) := by
    rw [List.length_take]
    omega
  rw [isFront', List.append_assoc, isCompleted] at isText
  have isCut := isStart.rest isText
  refine ⟨isCut, ?_, ?_⟩
  · have shortest := (longest.longest _ isCut common).length_le
    omega
  · intro adds
    have isOnly := only adds
    rw [List.cons.injEq] at isOnly
    have whole := congrArg List.length isOnly.1
    omega

omit atWord isFront isBack in
/-- A longer word that all candidates share has the same candidates. -/
theorem Shows.next_word {line' : CLine}
    (shown : Shows line' (front.take (wordStart line) ++ word) back)
    (sameStart : wordStart line' = wordStart line) (isLonger : currentWord line <+: word)
    (isShared : word <+: shared (first :: others)) :
    currentWord line' = word ∧ matching candidates line' = first :: others := by
  have start_le := shows_.start_le
  have isWord : currentWord line' = word := by
    have length : (front.take (wordStart line)).length = wordStart line := by
      rw [List.length_take]
      omega
    rw [shown.currentWord_eq, sameStart]
    exact List.drop_left' length
  refine ⟨isWord, ?_⟩
  rw [← isMatching]
  unfold matching
  apply List.filter_congr
  intro candidate member
  rw [Bool.eq_iff_iff, List.isPrefixOf_iff_prefix, List.isPrefixOf_iff_prefix, isWord]
  constructor
  · intro starts
    exact isLonger.trans starts
  · intro starts
    have isMatch : candidate ∈ matching candidates line := by
      unfold matching
      rw [List.mem_filter, List.isPrefixOf_iff_prefix]
      exact ⟨member, starts⟩
    rw [isMatching] at isMatch
    exact prefix_shared_iff.mp isShared candidate isMatch

omit atWord isFront isBack shows_ isMatching in
theorem lineTabs_fixed (isTab : lineComplete (some (offering candidates)) line = some line)
    (n : Nat) : lineTabs candidates n line = some line := by
  induction n with
  | zero => rfl
  | succ n ih => rw [lineTabs, isTab, Option.bind_some, ih]

/-- Where Tabs are exact, the first one reaches all that is shared. -/
theorem reach_of_exact (isFirst : utf8.Text first)
    (room : line.length + (first.length - (currentWord line).length) + 2 ≤ line.capacity)
    (longest : LongestShared (first :: others) text) (exact_ : ExactTabs candidates line) :
    text.length = max (currentWord line).length (reach candidates line) := by
  obtain ⟨⟨line', isTab, safe⟩, completes⟩ := exact_
  obtain ⟨n, last, isLast, steps, front', back', text', shows', longest', goal⟩ :=
    completes (by rw [isMatching]; exact List.cons_ne_nil _ _)
  obtain ⟨rfl, rfl⟩ := shows_.unique shows'
  rw [isMatching] at longest' goal
  cases longest.unique longest'
  obtain ⟨isCut, upper, adds⟩ := safe_reach atWord shows_ isFront isBack isMatching room longest isTab safe
  by_contra other
  have isLonger : max (currentWord line).length (reach candidates line) < text.length := by omega
  have isWord := word_prefix isMatching
  have isShared : text <+: shared (first :: others) := prefix_shared_iff.mpr longest.common
  -- the candidates share more than is kept of the first one
  have isFull : reach candidates line = compCapacity := by
    by_contra short
    have small : (shared (first :: others)).length < compCapacity := by
      by_contra long
      exact short (reach_long atWord isMatching (by omega))
    have isCut := longest.unique (longestShared isFirst)
    have le := Pieces.backTo_le (P := utf8) first (shared (first :: others)).length
    have length := congrArg List.length isCut
    rw [List.length_take, ← reach_short atWord isMatching small] at length
    omega
  have no_blank : ¬ addsBlank (offering candidates) line = true := by
    intro isBlank
    have whole := adds isBlank
    have inFirst := (longest.common first List.mem_cons_self).length_le
    omega
  obtain ⟨line'', isTab', edited, shown⟩ := shows_.completed atWord isMatching room
  rw [isTab] at isTab'
  cases isTab'
  rw [if_neg no_blank, List.append_nil] at shown
  generalize isReach : max (currentWord line).length (reach candidates line) = place
    at isCut upper isLonger shown
  have word_length : (first.take place).length = place := by
    have inFirst := (longest.common first List.mem_cons_self).length_le
    rw [List.length_take]
    omega
  -- what is shown then is too short
  have misses {line₁ : CLine} {word : Bytes} (isShort : word.length ≤ place)
      (shows₁ : Shows line₁ (front.take (wordStart line) ++ word) back)
      (isEnd : line₁ = last) : False := by
    rw [isEnd] at shows₁
    have same := (shows₁.unique goal).1
    rw [List.append_cancel_left_eq] at same
    have length := congrArg List.length same
    unfold goalOf at length
    split at length
    · rw [List.length_append] at length
      omega
    · omega
  cases n with
  | zero =>
    cases isLast
    have atStart : Shows line (front.take (wordStart line) ++ currentWord line) back := by
      rw [shows_.currentWord_eq, List.take_append_drop]
      exact shows_
    exact misses (by omega) atStart rfl
  | succ n =>
    rw [lineTabs, isTab, Option.bind_some] at isLast
    cases n with
    | zero =>
      cases isLast
      exact misses (by omega) shown rfl
    | succ n =>
      rw [lineTabs, Option.bind_eq_some_iff] at isLast
      obtain ⟨line₂, isNext, isLast⟩ := isLast
      have isFirstTab : lineTabs candidates 1 line = some line' := by
        rw [lineTabs, isTab]
        rfl
      obtain ⟨sameStart, safe'⟩ := steps 1 (by omega) line' line₂ isFirstTab isNext
      have isLonger' : currentWord line <+: first.take place := by
        rw [List.prefix_iff_eq_take.mp isWord]
        exact List.take_prefix_take_left (by omega)
      have isShared' : first.take place <+: shared (first :: others) := by
        rw [List.prefix_iff_eq_take.mp (longest.common first List.mem_cons_self)] at isShared
        exact (List.take_prefix_take_left (by omega)).trans isShared
      obtain ⟨isWord', isMatching'⟩ :=
        shows_.next_word isMatching shown sameStart isLonger' isShared'
      have long : compCapacity ≤ (shared (first :: others)).length := by
        have le := isShared'.length_le
        omega
      have atWord' : compStartOf line' = wordStart line' := by
        apply compStartOf_inside shown.inside
        have cursor := shown.cursor
        have start_le := shows_.start_le
        have big : compCapacity ≤ place := by omega
        unfold compCapacity at big
        rw [List.length_append, List.length_take, word_length] at cursor
        omega
      have isFull' := reach_long atWord' isMatching' long
      have room' : line'.length + (first.length - (currentWord line').length) + 2 ≤
          line'.capacity := by
        have shown_length := shown.length
        have line_length := shows_.length
        have start_length := congrArg List.length shows_.currentWord_eq
        have start_le := shows_.start_le
        have inFirst := (longest.common first List.mem_cons_self).length_le
        rw [List.length_append, List.length_take, word_length] at shown_length
        rw [List.length_drop] at start_length
        rw [isWord', word_length, edited.capacity, shown_length]
        omega
      obtain ⟨line₂', isNext', _, _, stays, adds_iff⟩ := shown.tab atWord' isMatching' room'
      rw [isNext] at isNext'
      cases isNext'
      rw [isWord', isFull', word_length] at stays adds_iff
      by_cases single : others = []
      · have isStart := (shows_.start_boundary atWord isFront isBack).1
        obtain ⟨_, _, adds'⟩ := safe_reach atWord' shown (isStart.append isCut) isBack isMatching' room'
          longest isNext safe'
        have whole := adds' (adds_iff.mpr ⟨single, Or.inl (by omega)⟩)
        rw [isWord', isFull', word_length] at whole
        have inFirst := (longest.common first List.mem_cons_self).length_le
        omega
      · have same := stays (by omega) single
        rw [same] at isNext isLast
        rw [lineTabs_fixed isNext] at isLast
        cases isLast
        exact misses (by omega) shown rfl

end Tabs

/-- The code's word is the last argument with its blanks, where the cursor is behind them. -/
theorem stale_count {front back : Bytes} (shows_ : Shows line front back)
    (behind : behindBlank line = true)
    (stale : ∀ candidate ∈ candidates, ¬lastArgument line <+: candidate) :
    (measured (offering candidates) line).compCount = 0 := by
  have argument : ∃ byte ∈ line.buffer.take line.cursor, byte ≠ blank := by
    unfold behindBlank at behind
    dsimp only at behind
    rw [Bool.and_eq_true] at behind
    simpa using behind.2
  have isWord : lineCompWord line ⟨compStartOf line, 0, 0, 0, []⟩ = lastArgument line := by
    unfold lineCompWord
    dsimp only
    rw [compStartOf_argument shows_.inside argument]
    rfl
  have isMeasured : MeasuredAll (⟨compStartOf line, 0, 0, 0, []⟩ : CComp) [] := rfl
  have spec : MeasuredAll ((offering candidates).foldl (CompCall.run line) _) _ :=
    (offering_spec isWord isMeasured).1
  have none : (candidates.filter fun candidate => (lastArgument line).isPrefixOf candidate) = [] := by
    rw [List.filter_eq_nil_iff]
    intro candidate member
    rw [List.isPrefixOf_iff_prefix]
    exact stale candidate member
  rw [List.nil_append, none] at spec
  exact spec

section Quiet

variable {front back : Bytes} (shows_ : Shows line front back) (isFront : utf8.Text front)
  (count : (measured (offering candidates) line).compCount = 0)

include count

/-- A Tab for which there is no candidate. -/
theorem quiet_tab : lineComplete (some (offering candidates)) line = some line ∧
    addsBlank (offering candidates) line = false := by
  constructor
  · unfold lineComplete
    dsimp only
    rw [if_pos count]
  · unfold addsBlank
    dsimp only
    rw [count]
    rfl

include shows_ isFront

theorem quiet_safe : SafeTab candidates line line := by
  have no_blank := (quiet_tab count).2
  refine ⟨front, back, [], shows_, ?_, ?_, fun _ => rfl, ?_, ?_⟩
  · rw [no_blank, if_neg Bool.false_ne_true, List.append_nil, List.append_nil]
    exact shows_
  · intro candidate member
    rw [List.append_nil]
    exact (mem_matching member).2
  · rwa [List.append_nil]
  · intro adds
    rw [no_blank] at adds
    cases adds

/-- Behind an argument and a blank nothing is typed, where something may be missing. -/
theorem quiet_exact_iff (behind : behindBlank line = true) :
    ExactTabs candidates line ↔
      candidates = [] ∨ candidates.length ≠ 1 ∧ LongestShared candidates [] := by
  have isTab := (quiet_tab count).1
  have isStart : wordStart line = front.length := by
    unfold behindBlank at behind
    dsimp only at behind
    rw [Bool.and_eq_true, beq_iff_eq] at behind
    rw [wordStart_blank shows_.inside behind.1, shows_.cursor]
  have all : matching candidates line = candidates := by
    have isWord : currentWord line = [] := by
      rw [shows_.currentWord_eq, isStart, List.drop_length]
    unfold matching
    rw [isWord]
    exact List.filter_eq_self.mpr fun _ _ => rfl
  have safe := quiet_safe shows_ isFront count
  constructor
  · rintro ⟨-, completes⟩
    rw [all] at completes
    by_cases none : candidates = []
    · exact Or.inl none
    obtain ⟨n, last, isLast, -, front', back', text, shows', longest, goal⟩ := completes none
    obtain ⟨rfl, rfl⟩ := shows_.unique shows'
    rw [lineTabs_fixed isTab] at isLast
    cases isLast
    have same := (goal.unique shows_).1
    rw [all] at longest same
    rw [isStart, List.take_length, List.append_right_eq_self] at same
    unfold goalOf at same
    right
    split at same
    · cases (List.append_eq_nil_iff.mp same).2
    next several =>
      rw [same] at longest
      exact ⟨several, longest⟩
  · intro nothing
    refine ⟨⟨line, isTab, safe⟩, ?_⟩
    rw [all]
    intro some_
    obtain ⟨several, longest⟩ := nothing.resolve_left some_
    refine ⟨0, line, rfl, fun i less => absurd less (Nat.not_lt_zero i), front, back, [], shows_,
      ?_, ?_⟩
    · rwa [all]
    · unfold goalOf
      rw [all, if_neg several, List.append_nil, isStart, List.take_length]
      exact shows_

end Quiet

theorem exact_of_none {front back : Bytes} (atWord : compStartOf line = wordStart line)
    (shows_ : Shows line front back) (isFront : utf8.Text front)
    (none : matching candidates line = []) : ExactTabs candidates line := by
  have count := (measured_spec atWord candidates).2.1 none
  exact ⟨⟨line, (quiet_tab count).1, quiet_safe shows_ isFront count⟩,
    fun some_ => absurd none some_⟩

/-- Tabs are exact if and only if what the matching candidates share is shorter than the array, or
ends just at its end or at the end of the word. Behind an argument and a blank the code takes both
for the word, and if no candidate begins with them nothing happens. -/
theorem lineComplete_exact_iff {front back : Bytes} (shows_ : Shows line front back)
    (isFront : utf8.Text front) (isBack : utf8.Text back)
    (isText : ∀ candidate ∈ candidates, utf8.Text candidate)
    (room : ∀ candidate ∈ matching candidates line,
      line.length + (candidate.length - (currentWord line).length) + 2 ≤ line.capacity) :
    (behindBlank line = false → (ExactTabs candidates line ↔
      (shared (matching candidates line)).length < compCapacity ∨
      ∃ text, LongestShared (matching candidates line) text ∧
        text.length = max (currentWord line).length compCapacity)) ∧
    (behindBlank line = true → (∀ candidate ∈ candidates, ¬lastArgument line <+: candidate) →
      (ExactTabs candidates line ↔
        candidates = [] ∨ candidates.length ≠ 1 ∧ LongestShared candidates [])) := by
  constructor
  · intro notBehind
    have atWord := compStartOf_eq shows_.inside notBehind
    cases isMatching : matching candidates line with
    | nil => exact iff_of_true (exact_of_none atWord shows_ isFront isMatching) (Or.inl (by decide))
    | cons first others =>
      rw [isMatching] at room
      have member : first ∈ matching candidates line := by
        rw [isMatching]
        exact List.mem_cons_self
      have isFirst := isText first (mem_matching member).1
      have roomy := room first List.mem_cons_self
      have longest : LongestShared (first :: others) _ := longestShared isFirst
      generalize isShared : first.take _ = text at longest
      have exact_iff : ExactTabs candidates line ↔
          text.length = max (currentWord line).length (reach candidates line) :=
        ⟨reach_of_exact atWord shows_ isFront isBack isMatching isFirst roomy longest,
          exact_of_reach atWord shows_ isFront isBack isMatching isFirst roomy longest⟩
      rw [exact_iff]
      by_cases short : (shared (first :: others)).length < compCapacity
      · apply iff_of_true _ (Or.inl short)
        have isWord := (shows_.start_boundary atWord isFront isBack).2
        have common : ∀ other ∈ first :: others, currentWord line <+: other := by
          rw [← isMatching]
          exact fun other isOther => (mem_matching isOther).2
        have word_le := (longest.longest _ isWord common).length_le
        have back_le := Pieces.backTo_le (P := utf8) first (shared (first :: others)).length
        have isPrefix : shared (first :: others) <+: first := shared_prefix
        have shared_le := isPrefix.length_le
        have length := congrArg List.length isShared
        rw [List.length_take] at length
        rw [reach_short atWord isMatching short]
        omega
      · rw [reach_long atWord isMatching (by omega)]
        constructor
        · intro isEnd
          exact Or.inr ⟨text, longest, isEnd⟩
        · rintro (isShort | ⟨other, longest', isEnd⟩)
          · exact absurd isShort short
          · rw [longest.unique longest']
            exact isEnd
  · intro behind stale
    exact quiet_exact_iff shows_ isFront (stale_count shows_ behind stale) behind

def oneLetter : CLine := ⟨0x6F :: List.replicate 15 0, 1, 1, none, 0, 0, [], 0⟩

/-- "o" becomes "op", which "open" and "option" share. -/
theorem lineComplete_exact_iff_two :
    Shows oneLetter [0x6F] [] ∧ utf8.Text [0x6F] ∧ utf8.Text [] ∧
    (∀ candidate ∈ [[0x6F, 0x70, 0x65, 0x6E], [0x6F, 0x70, 0x74, 0x69, 0x6F, 0x6E]],
      utf8.Text candidate) ∧
    ExactTabs [[0x6F, 0x70, 0x65, 0x6E], [0x6F, 0x70, 0x74, 0x69, 0x6F, 0x6E]] oneLetter := by
  have shows_ : Shows oneLetter [0x6F] [] := ⟨rfl, rfl, rfl, by decide⟩
  have isFront : utf8.Text [0x6F] := Text.ascii_text (by decide)
  have isText : ∀ candidate ∈ [[0x6F, 0x70, 0x65, 0x6E], [0x6F, 0x70, 0x74, 0x69, 0x6F, 0x6E]],
      utf8.Text candidate := by
    rw [List.forall_mem_cons, List.forall_mem_singleton]
    exact ⟨Text.ascii_text (by decide), Text.ascii_text (by decide)⟩
  refine ⟨shows_, isFront, .nil, isText,
    ((lineComplete_exact_iff shows_ isFront .nil isText ?_).1 ?_).mpr (Or.inl ?_)⟩
  · decide
  · decide
  · decide

def longBuffer : CLine := ⟨0x61 :: List.replicate 255 0, 1, 1, none, 0, 0, [], 0⟩

/-- "open " with the cursor at its end. -/
def openBlank : CLine :=
  ⟨[0x6F, 0x70, 0x65, 0x6E, 0x20] ++ List.replicate 15 0, 5, 5, none, 0, 0, [], 0⟩

/-- The second Tab puts a blank behind 128 of the 129 bytes of the only candidate. Behind "open "
the only candidate "f" is not typed. -/
theorem long_candidate_not_completed :
    (Shows longBuffer [0x61] [] ∧ ¬ ExactTabs [List.replicate 129 0x61] longBuffer) ∧
      Shows openBlank [0x6F, 0x70, 0x65, 0x6E, 0x20] [] ∧ ¬ ExactTabs [[0x66]] openBlank := by
  have openShows : Shows openBlank [0x6F, 0x70, 0x65, 0x6E, 0x20] [] :=
    ⟨rfl, rfl, rfl, by decide⟩
  have openTabs : ¬ ExactTabs [[0x66]] openBlank := by
    have behind : behindBlank openBlank = true := by decide
    have count : (measured (offering [[0x66]]) openBlank).compCount = 0 :=
      stale_count openShows behind (by decide)
    rw [quiet_exact_iff openShows (Text.ascii_text (by decide)) count behind]
    simp
  refine ⟨?_, openShows, openTabs⟩
  have shows_ : Shows longBuffer [0x61] [] := ⟨rfl, rfl, rfl, by decide +kernel⟩
  have isMatching : matching [List.replicate 129 0x61] longBuffer = [List.replicate 129 0x61] := by
    decide +kernel
  have isText : utf8.Text (List.replicate 129 0x61) := Text.ascii_text (by decide +kernel)
  have longest : LongestShared [List.replicate 129 0x61] (List.replicate 129 0x61) :=
    ⟨isText, by rw [List.forall_mem_singleton], fun _ _ common =>
      common _ List.mem_cons_self⟩
  refine ⟨shows_, ?_⟩
  intro exact_
  have atWord : compStartOf longBuffer = wordStart longBuffer := by decide +kernel
  have isReach := reach_of_exact atWord shows_ (Text.ascii_text (by decide)) .nil isMatching isText
    (by decide +kernel) longest exact_
  rw [reach_long atWord isMatching (by decide +kernel)] at isReach
  exact absurd isReach (by decide +kernel)

end Aholyc.Line
