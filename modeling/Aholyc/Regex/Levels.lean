import Aholyc.Regex.Layout

/-!
# Every pattern compiles

By induction on the grammar: where a phrase of a level stands in the pattern,
the function of the compiler for the level goes on over it and builds its
meaning.
-/

namespace Aholyc.Regex

open Aholyc.Lib.Hoare Aholyc.Text

def isPhrase : Level → Bool
  | .atom => true
  | .repeat => true
  | .sequence => true
  | .branch => false
  | .alternative => false

variable {level : Level} {text rest : List UInt8} {pattern : Pattern} {c : CRegexCompiler}
  {ch : UInt8} {expr : Expr}

/-- The first byte of a phrase does not close a branch and repeats nothing. -/
theorem Spells.begins (spells : Spells level text pattern) (phrase : isPhrase level = true) :
    ∃ ch more, text = ch :: more ∧ isRepeat ch = false ∧ ch ≠ 0x29 ∧ ch ≠ 0x7C := by
  induction spells with
  | group => exact ⟨_, _, rfl, by decide⟩
  | charClass => exact ⟨_, _, rfl, by decide⟩
  | negated => exact ⟨_, _, rfl, by decide⟩
  | any => exact ⟨_, _, rfl, by decide⟩
  | bol => exact ⟨_, _, rfl, by decide⟩
  | eol => exact ⟨_, _, rfl, by decide⟩
  | kind => exact ⟨_, _, rfl, by decide⟩
  | escaped => exact ⟨_, _, rfl, by decide⟩
  | literal letter other =>
    cases text : String.utf8EncodeChar letter with
    | nil => exact absurd text String.utf8EncodeChar_ne_nil
    | cons ch more =>
      have differs : ∀ (byte : UInt8) (sign : Char), sign.val.toNat = byte.toNat →
          byte.toNat < 0x80 → sign ∈ ['*', '+', '?', '(', ')', '[', '.', '^', '$', '\\', '|'] →
          ch ≠ byte := by
        rintro byte sign same ascii inList rfl
        rw [char_of_head text same ascii] at other
        exact other inList
      refine ⟨ch, more, rfl, ?_, differs 0x29 ')' rfl (by decide) (by simp),
        differs 0x7C '|' rfl (by decide) (by simp)⟩
      rw [← Bool.not_eq_true, isRepeat_iff]
      rintro (isStar | isPlus | isOpt)
      · exact differs 0x2A '*' rfl (by decide) (by simp) isStar
      · exact differs 0x2B '+' rfl (by decide) (by simp) isPlus
      · exact differs 0x3F '?' rfl (by decide) (by simp) isOpt
  | once _ _ _ ih => exact ih rfl
  | star _ _ _ ih =>
    obtain ⟨ch, more, rfl, begins⟩ := ih rfl
    exact ⟨ch, _, rfl, begins⟩
  | plus _ _ _ ih =>
    obtain ⟨ch, more, rfl, begins⟩ := ih rfl
    exact ⟨ch, _, rfl, begins⟩
  | opt _ _ _ ih =>
    obtain ⟨ch, more, rfl, begins⟩ := ih rfl
    exact ⟨ch, _, rfl, begins⟩
  | one _ _ _ ih => exact ih rfl
  | more _ _ _ _ _ _ ih _ =>
    obtain ⟨ch, more, rfl, begins⟩ := ih rfl
    exact ⟨ch, _, rfl, begins⟩
  | empty => cases phrase
  | filled => cases phrase
  | single => cases phrase
  | alt => cases phrase

def NoRepeat (rest : List UInt8) : Prop := rest.head?.any isRepeat = false

def Closes (rest : List UInt8) : Prop := rest.head?.all (fun ch => ch = 0x29 ∨ ch = 0x7C) = true

theorem Closes.noRepeat (closes : Closes rest) : NoRepeat rest := by
  cases rest with
  | nil => rfl
  | cons ch rest =>
    simp only [Closes, List.head?_cons, Option.all_some, decide_eq_true_eq] at closes
    simp only [NoRepeat, List.head?_cons, Option.any_some]
    rcases closes with rfl | rfl <;> decide

theorem not_begins (eq : c.left = rest) (closes : Closes rest) : regexAtomBegins c = false := by
  rw [regexAtomBegins, next_eq, eq]
  cases rest with
  | nil => rfl
  | cons ch rest =>
    simp only [Closes, List.head?_cons, Option.all_some, decide_eq_true_eq] at closes
    rw [List.head?_cons, Option.any_some, decide_eq_false_iff_not]
    rcases closes with rfl | rfl <;> decide

theorem begins_of_phrase (spells : Spells level text pattern) (phrase : isPhrase level = true)
    (eq : c.left = text ++ rest) : regexAtomBegins c = true := by
  obtain ⟨ch, more, rfl, _, notClose, notBar⟩ := spells.begins phrase
  rw [regexAtomBegins, next_eq, eq, List.cons_append, List.head?_cons, Option.any_some,
    decide_eq_true_eq]
  exact ⟨notClose, notBar⟩

/-! ## Atoms -/

theorem emit_compiles (op : RegexOp) (fits : Fits c 0) (eq : c.left = [ch] ++ rest)
    (meaning : ∀ program target, Fetches program c.count ⟨op, some target, none, 0, 0, 0, false⟩ →
      Laid program expr c.count target) :
    Gives (Compiles c [ch] 0 expr) (regexEmit op >>= fun index => regexFragmentOne index false)
      { c with offset := c.offset + 1 } := by
  have emits := Emits.advance eq
  refine Ends.mono (emit_gives (fits.relax emits (Nat.zero_le 2) rfl) (Nat.zero_le 1) op) ?_
  rintro fragment c' ⟨rfl, rfl⟩
  have compiles : Compiles c [ch] 0 expr ⟨c.count, [(c.count, false)]⟩
      (emitted c [ch] [] ⟨op, none, none, 0, 0, 0, false⟩) := by
    apply compiles_one eq (by simp) (by simp)
    intro program target fetches _
    exact meaning program target fetches
  exact compiles

theorem regexEmptyFragment_compiles (fits : Fits c 0) :
    Gives (Compiles c [] 1 .empty) regexEmptyFragment c := by
  refine Ends.mono (emit_gives fits (Nat.zero_le 1) .jump) ?_
  rintro fragment c' ⟨rfl, rfl⟩
  apply compiles_one (List.nil_append c.left).symm (by simp) (by simp)
  intro program target fetches _
  exact Laid.empty c.count target _ fetches rfl rfl

theorem rune_compiles (value : Nat) (fits : Fits c 0) (eq : c.left = text ++ rest)
    (some_ : text ≠ []) :
    Gives (Compiles c text 0 (.rune value))
      (regexEmit .rune >>= fun index => setInstruction index (fun instruction =>
        { instruction with rune := value }) >>= fun _ => regexFragmentOne index false)
      { c with offset := c.offset + text.length } := by
  have positive := List.length_pos_of_ne_nil some_
  simp only [Gives, ends_bind]
  refine Ends.mono (regexEmit_gives .rune (fits.room (Nat.zero_le 1))) ?_
  rintro index mid ⟨rfl, rfl⟩
  simp only [setInstruction, ends_modify, modify_last]
  refine Ends.mono (regexFragmentOne_gives _ _ (fits.patches (Nat.zero_le 1))) ?_
  rintro fragment c' ⟨rfl, rfl⟩
  have compiles : Compiles c text 0 (.rune value) ⟨c.count, [(c.count, false)]⟩
      (emitted c text [] ⟨.rune, none, none, value, 0, 0, false⟩) := by
    apply compiles_one eq (by simp) (by omega)
    intro program target fetches _
    exact Laid.rune value c.count target _ fetches rfl rfl rfl
  simpa [emitted] using compiles

theorem kind_compiles (kind : Nat) (fits : Fits c 0) (eq : c.left = text ++ rest)
    (size : 2 ≤ text.length) :
    Gives (Compiles c text 0 (.charClass (kindRanges kind) false))
      (regexEmit .charClass >>= fun index => get >>= fun compiler => regexClassKind kind >>= fun _ =>
        get >>= fun compiler' => setInstruction index (fun instruction => { instruction with
          rangeIndex := compiler.ranges.length
          rangeCount := compiler'.ranges.length - compiler.ranges.length }) >>= fun _ =>
        regexFragmentOne index false)
      { c with offset := c.offset + text.length } := by
  have few := kindRanges_length kind
  have roomRanges := (fits.after (Emits.advance eq)).ranges
  have capacity := fits.rangeCapacity
  have inside := (fits.after (Emits.advance eq)).offset
  have used := fits.ranges
  simp only at roomRanges inside
  simp only [Gives, ends_bind, ends_get]
  refine Ends.mono (regexEmit_gives .charClass (fits.room (Nat.zero_le 1))) ?_
  rintro index mid ⟨rfl, rfl⟩
  refine Ends.mono (regexRangesAdd_gives (kindRanges kind) ?_) ?_
  · simp only
    omega
  rintro _ after rfl
  simp only [setInstruction, ends_modify, passing, modify_last, List.length_append,
    Nat.add_sub_cancel_left]
  refine Ends.mono (regexFragmentOne_gives _ _ (fits.patches (Nat.zero_le 1))) ?_
  rintro fragment c' ⟨rfl, rfl⟩
  exact class_compiles eq (by omega) (List.ne_nil_of_length_pos (by omega))

/-! ## The levels -/

/-- What the compiler does with a phrase of a level. For the loops: they come
to the end of the phrase in `k` rounds. -/
def LevelGives (level : Level) (text : List UInt8) (pattern : Pattern) : Prop :=
  ∀ expr, pattern.meaning true = some expr → ∀ fuel c rest, c.left = text ++ rest → Fits c 0 →
    text.length ≤ fuel →
    match level with
    | .atom => Gives (Compiles c text 0 expr) (regexParseAtom (regexParseAlternative fuel)) c
    | .repeat => NoRepeat rest →
        Gives (Compiles c text 0 expr) (regexParseRepeat (regexParseAlternative fuel)) c
    | .sequence => NoRepeat rest → ∃ k, k < text.length ∧ ∀ n post,
        (∀ fragment c', Compiles c text 0 expr fragment c' →
          Gives post (sequenceLoop (regexParseAlternative fuel) n fragment) c') →
        Gives post (regexParseRepeat (regexParseAlternative fuel) >>=
          sequenceLoop (regexParseAlternative fuel) (n + k)) c
    | .branch => Closes rest →
        Gives (Compiles c text 1 expr) (regexParseSequence (regexParseAlternative fuel)) c
    | .alternative => Closes rest → ∃ k, k ≤ text.length ∧ ∀ n post,
        (∀ fragment c', Compiles c text 1 expr fragment c' →
          Gives post (alternativeLoop (regexParseAlternative fuel) n fragment) c') →
        Gives post (regexParseSequence (regexParseAlternative fuel) >>=
          alternativeLoop (regexParseAlternative fuel) (n + k)) c

theorem left_length (eq : c.left = text ++ rest) : text.length ≤ c.pattern.length := by
  have sizes := congrArg List.length eq
  rw [CRegexCompiler.left, List.length_drop, List.length_append] at sizes
  omega

theorem alternative_gives {fuel : Nat} (level : LevelGives .alternative text pattern)
    (meaning : pattern.meaning true = some expr) (eq : c.left = text ++ rest) (fits : Fits c 0)
    (enough : text.length ≤ fuel) (ends : rest.head?.all (· = 0x29) = true) :
    Gives (Compiles c text 1 expr) (regexParseAlternative (fuel + 1)) c := by
  have closes : Closes rest := by
    cases rest with
    | nil => rfl
    | cons ch rest =>
      simp only [List.head?_cons, Option.all_some, decide_eq_true_eq] at ends
      simp [Closes, ends]
  obtain ⟨k, le, goesOn⟩ := level expr meaning fuel c rest eq fits enough closes
  have size := left_length eq
  obtain ⟨n, isCount⟩ : ∃ n, c.pattern.length + 1 = n + 1 + k := ⟨c.pattern.length - k, by omega⟩
  simp only [Gives, regexParseAlternative, ends_bind, ends_get]
  rw [isCount]
  have whole := goesOn (n + 1) (Compiles c text 1 expr) (by
    intro fragment c' compiles
    simp only [Gives, alternativeLoop, ends_bind, ends_get, ends_ite, ends_pure]
    refine ⟨fun isBar => ?_, fun _ => compiles⟩
    have left := compiles.emits.moves.left
    rw [eq] at left
    rw [next_eq, ← List.append_cancel_left left] at isBar
    rw [isBar] at ends
    cases ends)
  rw [Gives, ends_bind] at whole
  exact whole

theorem group_gives (inner : LevelGives .alternative text pattern) :
    LevelGives .atom (0x28 :: text ++ [0x29]) pattern := by
  intro expr meaning fuel c rest eq fits enough
  rw [List.append_assoc, List.singleton_append, List.cons_append] at eq
  have first : Emits c { c with offset := c.offset + 1 } [0x28] 0 :=
    Emits.advance (show c.left = [0x28] ++ (text ++ 0x29 :: rest) from eq)
  have left : ({ c with offset := c.offset + 1 } : CRegexCompiler).left = text ++ 0x29 :: rest :=
    left_advance (show c.left = [0x28] ++ (text ++ 0x29 :: rest) from eq)
  have isNext : c.next = some 0x28 := by rw [next_eq, eq]; rfl
  simp only [List.length_append, List.length_cons] at enough
  obtain ⟨fuel, rfl⟩ : ∃ less, fuel = less + 1 := Nat.exists_eq_succ_of_ne_zero (by omega)
  simp only [Gives, regexParseAtom, ends_bind, ends_get, isNext, ends_ite, advance, ends_modify]
  refine ⟨fun bad => absurd bad (by decide), fun _ => ⟨fun _ => ?_, fun other => absurd trivial other⟩⟩
  refine Ends.mono (alternative_gives inner meaning left (fits.relax first (Nat.zero_le 2) rfl)
    (by omega) rfl) ?_
  intro fragment mid compiles
  have closed : mid.left = 0x29 :: rest := by
    have moved := compiles.emits.moves.left
    rw [left] at moved
    exact (List.append_cancel_left moved).symm
  refine ⟨fun open_ => absurd (by rw [next_eq, closed]; rfl) open_, fun _ => ?_⟩
  have last : Emits mid { mid with offset := mid.offset + 1 } [0x29] 0 :=
    Emits.advance (show mid.left = [0x29] ++ rest from closed)
  have whole := first.trans (compiles.emits.trans last)
  refine ⟨{ whole with count := ?_ }, compiles.built.inside, fun program target holds =>
    compiles.built.laid program target ⟨holds.instructions, holds.ranges⟩⟩
  have le := compiles.emits.count
  simp only [List.length_append, List.length_cons, List.length_nil]
  show mid.count ≤ _
  have same : ({ c with offset := c.offset + 1 } : CRegexCompiler).count = c.count := rfl
  rw [same] at le
  omega

theorem class_gives {items : List ClassItem} (spells : SpellsItems text items) (some_ : items ≠ [])
    (plain : text.head? ≠ some 0x5E) :
    LevelGives .atom (0x5B :: text ++ [0x5D]) (.charClass items false) := by
  intro expr meaning fuel c rest eq fits _
  obtain ⟨ranges, isRanges, rfl⟩ := Option.map_eq_some_iff.mp meaning
  have isNext : c.next = some 0x5B := by rw [next_eq, eq]; rfl
  simp only [Gives, regexParseAtom, ends_bind, ends_get, isNext, ends_ite, advance, ends_modify]
  refine ⟨fun bad => absurd bad (by decide), fun _ => ⟨fun bad => absurd bad (by decide), fun _ =>
    ⟨fun _ => ?_, fun other => absurd trivial other⟩⟩⟩
  exact regexParseClass_plain spells some_ plain isRanges fits eq

theorem negated_gives {items : List ClassItem} (spells : SpellsItems text items)
    (some_ : items ≠ []) :
    LevelGives .atom (0x5B :: 0x5E :: text ++ [0x5D]) (.charClass items true) := by
  intro expr meaning fuel c rest eq fits _
  obtain ⟨ranges, isRanges, rfl⟩ := Option.map_eq_some_iff.mp meaning
  have isNext : c.next = some 0x5B := by rw [next_eq, eq]; rfl
  simp only [Gives, regexParseAtom, ends_bind, ends_get, isNext, ends_ite, advance, ends_modify]
  refine ⟨fun bad => absurd bad (by decide), fun _ => ⟨fun bad => absurd bad (by decide), fun _ =>
    ⟨fun _ => ?_, fun other => absurd trivial other⟩⟩⟩
  exact regexParseClass_negated spells some_ isRanges fits eq

theorem any_gives : LevelGives .atom [0x2E] .any := by
  intro expr meaning fuel c rest eq fits _
  cases meaning
  have isNext : c.next = some 0x2E := by rw [next_eq, eq]; rfl
  simp only [Gives, regexParseAtom, ends_bind, ends_get, isNext, ends_ite, advance, ends_modify]
  refine ⟨fun bad => absurd bad (by decide), fun _ => ⟨fun bad => absurd bad (by decide), fun _ =>
    ⟨fun bad => absurd bad (by decide), fun _ => ⟨fun _ => ?_, fun other => absurd trivial other⟩⟩⟩⟩
  rw [← ends_bind]
  apply emit_compiles .any fits eq
  intro program target fetches
  exact Laid.any c.count target _ fetches rfl rfl

theorem bol_gives : LevelGives .atom [0x5E] .bol := by
  intro expr meaning fuel c rest eq fits _
  cases meaning
  have isNext : c.next = some 0x5E := by rw [next_eq, eq]; rfl
  simp only [Gives, regexParseAtom, ends_bind, ends_get, isNext, ends_ite, advance, ends_modify]
  refine ⟨fun bad => absurd bad (by decide), fun _ => ⟨fun bad => absurd bad (by decide), fun _ =>
    ⟨fun bad => absurd bad (by decide), fun _ => ⟨fun bad => absurd bad (by decide), fun _ =>
    ⟨fun _ => ?_, fun other => absurd trivial other⟩⟩⟩⟩⟩
  rw [← ends_bind]
  apply emit_compiles .bol fits eq
  intro program target fetches
  exact Laid.bol c.count target _ fetches rfl rfl

theorem eol_gives : LevelGives .atom [0x24] .eol := by
  intro expr meaning fuel c rest eq fits _
  cases meaning
  have isNext : c.next = some 0x24 := by rw [next_eq, eq]; rfl
  simp only [Gives, regexParseAtom, ends_bind, ends_get, isNext, ends_ite, advance, ends_modify]
  refine ⟨fun bad => absurd bad (by decide), fun _ => ⟨fun bad => absurd bad (by decide), fun _ =>
    ⟨fun bad => absurd bad (by decide), fun _ => ⟨fun bad => absurd bad (by decide), fun _ =>
    ⟨fun bad => absurd bad (by decide), fun _ => ⟨fun _ => ?_, fun other => absurd trivial other⟩⟩⟩⟩⟩⟩
  rw [← ends_bind]
  apply emit_compiles .eol fits eq
  intro program target fetches
  exact Laid.eol c.count target _ fetches rfl rfl

theorem escape_gives {value kind : Nat} (escapes : Escapes text value kind) (fuel : Nat)
    (fits : Fits c 0) (eq : c.left = 0x5C :: text ++ rest) :
    Gives (Compiles c (0x5C :: text) 0 (if kind ≠ 0 then .charClass (kindRanges kind) false
      else .rune value)) (regexParseAtom (regexParseAlternative fuel)) c := by
  have isNext : c.next = some 0x5C := by rw [next_eq, eq]; rfl
  have left : ({ c with offset := c.offset + 1 } : CRegexCompiler).left = text ++ rest :=
    left_advance (show c.left = [0x5C] ++ (text ++ rest) from eq)
  have size := List.length_pos_of_ne_nil escapes.ne_nil
  simp only [Gives, regexParseAtom, ends_bind, ends_get, isNext, ends_ite, advance, ends_modify]
  refine ⟨fun bad => absurd bad (by decide), fun _ => ⟨fun bad => absurd bad (by decide), fun _ =>
    ⟨fun bad => absurd bad (by decide), fun _ => ⟨fun bad => absurd bad (by decide), fun _ =>
    ⟨fun bad => absurd bad (by decide), fun _ => ⟨fun bad => absurd bad (by decide), fun _ =>
    ⟨fun _ => ?_, fun other => absurd trivial other⟩⟩⟩⟩⟩⟩⟩
  refine Ends.mono (regexReadEscape_gives escapes left) ?_
  rintro result mid ⟨rfl, rfl⟩
  have offset : c.offset + 1 + text.length = c.offset + (0x5C :: text).length := by
    rw [List.length_cons]
    omega
  rw [offset]
  refine ⟨fun isKind => ?_, fun notKind => ?_⟩
  · rw [if_pos isKind]
    have compiles := kind_compiles kind fits eq (by rw [List.length_cons]; omega)
    simpa only [Gives, ends_bind, ends_get] using compiles
  · rw [if_neg notKind]
    have compiles := rune_compiles value fits eq (List.cons_ne_nil _ _)
    simpa only [Gives, ends_bind] using compiles

theorem literal_gives {letter : Char}
    (other : letter ∉ ['*', '+', '?', '(', ')', '[', '.', '^', '$', '\\', '|']) :
    LevelGives .atom (String.utf8EncodeChar letter) (.rune letter.val.toNat) := by
  intro expr meaning fuel c rest eq fits _
  cases meaning
  cases text : String.utf8EncodeChar letter with
  | nil => exact absurd text String.utf8EncodeChar_ne_nil
  | cons ch more =>
    have differs : ∀ (byte : UInt8) (sign : Char), sign.val.toNat = byte.toNat →
        byte.toNat < 0x80 → sign ∈ ['*', '+', '?', '(', ')', '[', '.', '^', '$', '\\', '|'] →
        ch ≠ byte := by
      rintro byte sign same ascii inList rfl
      rw [char_of_head text same ascii] at other
      exact other inList
    have isNext : c.next = some ch := by rw [next_eq, eq, text]; rfl
    have notRepeat : ¬isRepeat ch = true := by
      rw [isRepeat_iff]
      rintro (isStar | isPlus | isOpt)
      · exact differs 0x2A '*' rfl (by decide) (by simp) isStar
      · exact differs 0x2B '+' rfl (by decide) (by simp) isPlus
      · exact differs 0x3F '?' rfl (by decide) (by simp) isOpt
    simp only [Gives, regexParseAtom, ends_bind, ends_get, isNext, ends_ite, advance, ends_modify,
      Nat.add_sub_cancel]
    refine ⟨fun bad => absurd bad notRepeat, fun _ =>
      ⟨fun bad => absurd bad (differs 0x28 '(' rfl (by decide) (by simp)), fun _ =>
      ⟨fun bad => absurd bad (differs 0x5B '[' rfl (by decide) (by simp)), fun _ =>
      ⟨fun bad => absurd bad (differs 0x2E '.' rfl (by decide) (by simp)), fun _ =>
      ⟨fun bad => absurd bad (differs 0x5E '^' rfl (by decide) (by simp)), fun _ =>
      ⟨fun bad => absurd bad (differs 0x24 '$' rfl (by decide) (by simp)), fun _ =>
      ⟨fun bad => absurd bad (differs 0x5C '\\' rfl (by decide) (by simp)), fun _ => ?_⟩⟩⟩⟩⟩⟩⟩
    refine Ends.mono (regexReadPatternRune_gives letter eq) ?_
    rintro value mid ⟨rfl, rfl⟩
    rw [← text]
    have compiles := rune_compiles letter.val.toNat fits eq String.utf8EncodeChar_ne_nil
    simpa only [Gives, ends_bind] using compiles

/-! ## Repetitions -/

theorem once_gives (atom : LevelGives .atom text pattern) : LevelGives .repeat text pattern := by
  intro expr meaning fuel c rest eq fits enough noRepeat
  simp only [Gives, regexParseRepeat, ends_bind, ends_get]
  refine Ends.mono (atom expr meaning fuel c rest eq fits enough) ?_
  intro fragment mid compiles
  have left : mid.left = rest := by
    have moved := compiles.emits.moves.left
    rw [eq] at moved
    exact (List.append_cancel_left moved).symm
  have none : mid.next.filter isRepeat = none := by
    rw [next_eq, left]
    rw [NoRepeat, ← Bool.not_eq_true, Option.any_eq_true] at noRepeat
    rw [Option.filter_eq_none_iff]
    intro ch isHead again
    exact noRepeat ⟨ch, isHead, again⟩
  rw [none]
  exact compiles

theorem repeat_gives (atom : LevelGives .atom text pattern) (again : isRepeat ch = true)
    {repeated : Expr} (meaning : pattern.meaning true = some expr) {fuel : Nat}
    (eq : c.left = text ++ [ch] ++ rest) (fits : Fits c 0) (enough : (text ++ [ch]).length ≤ fuel)
    (noRepeat : NoRepeat rest)
    (built : ∀ fragment mid, Compiles c text 0 expr fragment mid → Fits mid 0 →
      Gives (fun fragment' c' => Emits c c' (text ++ [ch]) 0 ∧ Built c c' fragment' repeated)
        (regexRepeatFragment ch mid.count fragment)
        { mid with
          offset := mid.offset + 1
          instructions := mid.instructions ++ [⟨.split, none, none, 0, 0, 0, false⟩] }) :
    Gives (Compiles c (text ++ [ch]) 0 repeated)
      (regexParseRepeat (regexParseAlternative fuel)) c := by
  rw [List.append_assoc] at eq
  rw [List.length_append] at enough
  simp only [Gives, regexParseRepeat, ends_bind, ends_get]
  refine Ends.mono (atom expr meaning fuel c _ eq fits (by omega)) ?_
  intro fragment mid compiles
  have left : mid.left = [ch] ++ rest := by
    have moved := compiles.emits.moves.left
    rw [eq] at moved
    exact (List.append_cancel_left moved).symm
  have isNext : mid.next.filter isRepeat = some ch := by
    rw [next_eq, left]
    exact Option.filter_eq_some_iff.mpr ⟨rfl, again⟩
  have fitsMid := fits.after compiles.emits
  rw [isNext]
  simp only [advance, ends_bind, ends_modify, ends_get, ends_ite, ends_pure]
  refine Ends.mono (regexEmit_gives .split (fitsMid.room (Nat.zero_le 1))) ?_
  rintro split after ⟨rfl, rfl⟩
  refine Ends.mono (built fragment mid compiles fitsMid) ?_
  rintro fragment' c' ⟨emits, isBuilt⟩
  refine ⟨fun bad => ?_, fun _ => ⟨emits, isBuilt⟩⟩
  have moved := emits.moves.left
  rw [eq, ← List.append_assoc] at moved
  rw [next_eq, ← List.append_cancel_left moved, noRepeat] at bad
  cases bad

/-- The emissions of a repetition, without what they build. -/
theorem emits_repeat {mid c' : CRegexCompiler} (emits : Emits c mid text 0)
    (eq : mid.left = [ch] ++ rest) (moved : c'.pattern = mid.pattern ∧ c'.offset = mid.offset + 1)
    (capacities : c'.instructionCapacity = mid.instructionCapacity ∧
      c'.rangeCapacity = mid.rangeCapacity ∧ c'.patchCapacity = mid.patchCapacity)
    (isPrefix : c.instructions <+: c'.instructions) (ranges : c'.ranges = mid.ranges)
    (count : c'.count = mid.count + 1) (patchCount : c'.patchCount = mid.patchCount + 1) :
    Emits c c' (text ++ [ch]) 0 where
  moves := emits.moves.trans ((Moves.advance eq).still (Moves.stay moved.1 moved.2))
  instructionCapacity := capacities.1.trans emits.instructionCapacity
  rangeCapacity := capacities.2.1.trans emits.rangeCapacity
  patchCapacity := capacities.2.2.trans emits.patchCapacity
  instructions := isPrefix
  ranges := by
    rw [ranges]
    exact emits.ranges
  count := by
    have le := emits.count
    rw [List.length_append, List.length_singleton]
    omega
  rangeCount := by
    have le := emits.rangeCount
    rw [ranges, List.length_append]
    omega
  patchCount := by
    have le := emits.patchCount
    omega

def looped (mid : CRegexCompiler) (fragment : CRegexFragment) : CRegexCompiler :=
  { mid with
    offset := mid.offset + 1
    instructions :=
      (patchedTo (splitAfter mid fragment.start) fragment.patches mid.count).instructions
    patchCount := mid.patchCount + 1 }

theorem looped_compiles {mid : CRegexCompiler} {body : Expr} {fragment : CRegexFragment}
    (compiles : Compiles c text 0 body fragment mid) (eq : mid.left = [ch] ++ rest) :
    Emits c (looped mid fragment) (text ++ [ch]) 0 ∧
      Built c (looped mid fragment) ⟨mid.count, [(mid.count, true)]⟩ (.star body) ∧
      Built c (looped mid fragment) ⟨fragment.start, [(mid.count, true)]⟩ (.plus body) := by
  have le := compiles.emits.count_le
  have count : (looped mid fragment).count = mid.count + 1 := by
    show (patchedTo (splitAfter mid fragment.start) fragment.patches mid.count).count = _
    rw [patchedTo_count, splitAfter, emitted_count]
  refine ⟨?_, built_star compiles.built le rfl rfl⟩
  refine emits_repeat compiles.emits eq ⟨?_, ?_⟩ ⟨?_, ?_, ?_⟩ ?_ ?_ count ?_ <;> try rfl
  apply prefix_of_getElem
  intro index inside
  have lt : index < mid.count := Nat.lt_of_lt_of_le inside le
  show (patchedTo (splitAfter mid fragment.start) fragment.patches mid.count).instructions[index]? = _
  have within : Within c.count mid.count fragment.patches := compiles.built.inside
  rw [patchedTo_getElem, splitAfter_getElem mid fragment.start index lt,
    patched_none (within.outside (Or.inl inside)), Option.map_id, id]
  exact prefix_getElem compiles.emits.instructions inside

theorem star_gives (atom : LevelGives .atom text pattern) :
    LevelGives .repeat (text ++ [0x2A]) (.star pattern) := by
  intro expr meaning fuel c rest eq fits enough noRepeat
  obtain ⟨body, isBody, rfl⟩ := Option.map_eq_some_iff.mp meaning
  apply repeat_gives atom (by decide) isBody eq fits enough noRepeat
  intro fragment mid compiles fitsMid
  have left : mid.left = [0x2A] ++ rest := by
    have moved := compiles.emits.moves.left
    rw [eq, List.append_assoc] at moved
    exact (List.append_cancel_left moved).symm
  simp only [Gives, regexRepeatFragment, setInstruction, ends_bind, ends_modify, modify_last,
    regexPatchTo, ends_ite]
  refine ⟨fun _ => ?_, fun other => absurd trivial other⟩
  refine Ends.mono (regexFragmentOne_gives _ _ (fitsMid.patches (Nat.zero_le 1))) ?_
  rintro fragment' c' ⟨rfl, rfl⟩
  obtain ⟨emits, isStar, _⟩ := looped_compiles compiles left
  exact ⟨emits, isStar⟩

theorem plus_gives (atom : LevelGives .atom text pattern) :
    LevelGives .repeat (text ++ [0x2B]) (.plus pattern) := by
  intro expr meaning fuel c rest eq fits enough noRepeat
  obtain ⟨body, isBody, rfl⟩ := Option.map_eq_some_iff.mp meaning
  apply repeat_gives atom (by decide) isBody eq fits enough noRepeat
  intro fragment mid compiles fitsMid
  have left : mid.left = [0x2B] ++ rest := by
    have moved := compiles.emits.moves.left
    rw [eq, List.append_assoc] at moved
    exact (List.append_cancel_left moved).symm
  simp only [Gives, regexRepeatFragment, setInstruction, ends_bind, ends_modify, modify_last,
    regexPatchTo, ends_ite]
  refine ⟨fun bad => absurd bad (by decide), fun _ => ⟨fun _ => ?_, fun other =>
    absurd trivial other⟩⟩
  refine Ends.mono (regexFragmentOne_gives _ _ (fitsMid.patches (Nat.zero_le 1))) ?_
  rintro fragment' c' ⟨rfl, rfl⟩
  obtain ⟨emits, _, isPlus⟩ := looped_compiles compiles left
  exact ⟨emits, isPlus⟩

theorem opt_gives (atom : LevelGives .atom text pattern) :
    LevelGives .repeat (text ++ [0x3F]) (.opt pattern) := by
  intro expr meaning fuel c rest eq fits enough noRepeat
  obtain ⟨body, isBody, rfl⟩ := Option.map_eq_some_iff.mp meaning
  apply repeat_gives atom (by decide) isBody eq fits enough noRepeat
  intro fragment mid compiles fitsMid
  have left : mid.left = [0x3F] ++ rest := by
    have moved := compiles.emits.moves.left
    rw [eq, List.append_assoc] at moved
    exact (List.append_cancel_left moved).symm
  have le := compiles.emits.count_le
  simp only [Gives, regexRepeatFragment, setInstruction, ends_bind, ends_modify, modify_last,
    regexPatchTo, ends_ite]
  refine ⟨fun bad => absurd bad (by decide), fun _ => ⟨fun bad => absurd bad (by decide),
    fun _ => ?_⟩⟩
  refine Ends.mono (regexFragmentOne_gives _ _ (fitsMid.patches (Nat.zero_le 1))) ?_
  rintro fragment' c' ⟨rfl, rfl⟩
  refine ⟨?_, built_opt compiles.built le rfl rfl⟩
  refine emits_repeat compiles.emits left ⟨?_, ?_⟩ ⟨?_, ?_, ?_⟩ ?_ ?_ List.length_append ?_ <;>
    try rfl
  exact compiles.emits.instructions.trans (List.prefix_append _ _)

/-! ## Sequences and alternatives -/

theorem one_gives (first : LevelGives .repeat text pattern) (some_ : 0 < text.length) :
    LevelGives .sequence text pattern := by
  intro expr meaning fuel c rest eq fits enough noRepeat
  refine ⟨0, some_, fun n post goesOn => ?_⟩
  rw [Gives, ends_bind]
  exact (first expr meaning fuel c rest eq fits enough noRepeat).mono goesOn

theorem more_gives {first second : Pattern} (front : LevelGives .sequence text first)
    (spells : Spells .repeat rest second) (last : LevelGives .repeat rest second) :
    LevelGives .sequence (text ++ rest) (.seq first second) := by
  intro expr meaning fuel c after eq fits enough noRepeat
  simp only [Pattern.meaning, Option.bind_eq_bind, Option.bind_eq_some_iff] at meaning
  obtain ⟨one, isOne, two, isTwo, isSeq⟩ := meaning
  cases isSeq
  rw [List.append_assoc] at eq
  rw [List.length_append] at enough
  obtain ⟨ch, more, rfl, notRepeat, _⟩ := spells.begins rfl
  obtain ⟨k, lt, loop⟩ := front one isOne fuel c _ eq fits (by omega) notRepeat
  refine ⟨k + 1, by rw [List.length_append, List.length_cons]; omega, fun n post goesOn => ?_⟩
  rw [show n + (k + 1) = n + 1 + k by omega]
  apply loop
  intro fragment mid compiles
  have left : mid.left = ch :: more ++ after := by
    have moved := compiles.emits.moves.left
    rw [eq] at moved
    exact (List.append_cancel_left moved).symm
  simp only [Gives, sequenceLoop, ends_bind, ends_get, ends_ite, ends_pure]
  refine ⟨fun _ => ?_, fun bad => absurd (begins_of_phrase spells rfl left) bad⟩
  refine Ends.mono (last two isTwo fuel mid after left (fits.after compiles.emits)
    (by omega) noRepeat) ?_
  intro next c' compiles'
  simp only [regexPatchTo, ends_modify]
  exact goesOn _ _ (compiles_seq compiles compiles')

theorem filled_gives (spells : Spells .sequence text pattern)
    (inner : LevelGives .sequence text pattern) : LevelGives .branch text pattern := by
  intro expr meaning fuel c rest eq fits enough closes
  obtain ⟨k, lt, loop⟩ := inner expr meaning fuel c rest eq fits enough closes.noRepeat
  have size := left_length eq
  obtain ⟨n, isCount⟩ : ∃ n, c.pattern.length + 1 = n + 1 + k := ⟨c.pattern.length - k, by omega⟩
  simp only [Gives, regexParseSequence, ends_bind, ends_get, ends_ite]
  refine ⟨fun _ => ?_, fun bad => absurd (begins_of_phrase spells rfl eq) bad⟩
  rw [isCount, ← ends_bind]
  apply loop
  intro fragment c' compiles
  have left : c'.left = rest := by
    have moved := compiles.emits.moves.left
    rw [eq] at moved
    exact (List.append_cancel_left moved).symm
  simp only [Gives, sequenceLoop, ends_bind, ends_get, ends_ite, ends_pure]
  refine ⟨fun begins => ?_, fun _ => ⟨compiles.emits.mono (Nat.zero_le 1), compiles.built⟩⟩
  rw [not_begins left closes] at begins
  cases begins

theorem empty_gives : LevelGives .branch [] .empty := by
  intro expr meaning fuel c rest eq fits _ closes
  cases meaning
  simp only [Gives, regexParseSequence, ends_bind, ends_get, ends_ite]
  refine ⟨fun begins => ?_, fun _ => regexEmptyFragment_compiles fits⟩
  rw [not_begins eq closes] at begins
  cases begins

theorem single_gives (branch : LevelGives .branch text pattern) :
    LevelGives .alternative text pattern := by
  intro expr meaning fuel c rest eq fits enough closes
  refine ⟨0, Nat.zero_le _, fun n post goesOn => ?_⟩
  rw [Gives, ends_bind]
  exact (branch expr meaning fuel c rest eq fits enough closes).mono goesOn

theorem alt_gives {left right : Pattern} (front : LevelGives .alternative text left)
    (last : LevelGives .branch rest right) :
    LevelGives .alternative (text ++ 0x7C :: rest) (.alt left right) := by
  intro expr meaning fuel c after eq fits enough closes
  simp only [Pattern.meaning, Option.bind_eq_bind, Option.bind_eq_some_iff] at meaning
  obtain ⟨one, isOne, two, isTwo, isAlt⟩ := meaning
  cases isAlt
  rw [List.append_assoc, List.cons_append] at eq
  rw [List.length_append, List.length_cons] at enough
  obtain ⟨k, le, loop⟩ := front one isOne fuel c _ eq fits (by omega) rfl
  refine ⟨k + 1, by rw [List.length_append, List.length_cons]; omega, fun n post goesOn => ?_⟩
  rw [show n + (k + 1) = n + 1 + k by omega]
  apply loop
  intro fragment mid compiles
  have isLeft : mid.left = [0x7C] ++ (rest ++ after) := by
    have moved := compiles.emits.moves.left
    rw [eq] at moved
    exact (List.append_cancel_left moved).symm
  have isBar : mid.next = some 0x7C := by rw [next_eq, isLeft]; rfl
  have bar : Emits mid { mid with offset := mid.offset + 1 } [0x7C] 0 := Emits.advance isLeft
  have fitsBar := (fits.after compiles.emits).relax bar (by omega) rfl
  simp only [Gives, alternativeLoop, ends_bind, ends_get, ends_ite, ends_pure, advance,
    ends_modify]
  refine ⟨fun _ => ?_, fun bad => absurd isBar bad⟩
  refine Ends.mono (last two isTwo fuel _ after (left_advance isLeft) fitsBar (by omega) closes) ?_
  intro next c' compiles'
  have fits' := fitsBar.after compiles'.emits
  refine Ends.mono (regexEmit_gives .split (fits'.room (Nat.le_refl 1))) ?_
  rintro index end_ ⟨rfl, rfl⟩
  simp only [setInstruction, ends_modify, modify_last]
  apply goesOn
  have whole := compiles.emits.trans (bar.trans compiles'.emits)
  constructor
  · refine ⟨whole.moves.still (Moves.stay ?_ ?_), whole.instructionCapacity, whole.rangeCapacity,
      whole.patchCapacity, whole.instructions.trans (List.prefix_append _ _), whole.ranges, ?_,
      whole.rangeCount, ?_⟩
    · rfl
    · rfl
    · have count := compiles.emits.count
      have count' := compiles'.emits.count
      have same : ({ mid with offset := mid.offset + 1 } : CRegexCompiler).count = mid.count := rfl
      rw [CRegexCompiler.count, List.length_append, List.length_singleton]
      simp only [List.length_append, List.length_cons]
      show c'.count + 1 ≤ _
      omega
    · have patchCount := whole.patchCount
      have size : ∀ instruction, (c'.instructions ++ [instruction]).length = c'.count + 1 :=
        fun instruction => List.length_append
      show c'.patchCount + c.count ≤ c.patchCount + (c'.instructions ++ [_]).length
      rw [size]
      omega
  · exact built_alt compiles.built compiles'.built compiles.emits.count_le rfl
      compiles'.emits.instructions compiles'.emits.ranges rfl rfl

theorem Spells.gives (spells : Spells level text pattern) : LevelGives level text pattern := by
  induction spells with
  | group text pattern inner ih => exact group_gives ih
  | charClass text items spells some_ plain => exact class_gives spells some_ plain
  | negated text items spells some_ => exact negated_gives spells some_
  | any => exact any_gives
  | bol => exact bol_gives
  | eol => exact eol_gives
  | kind text value kind escapes isKind =>
    intro expr meaning fuel c rest eq fits _
    have isClass : expr = .charClass (kindRanges kind) false := by
      simpa [Pattern.meaning, classRanges] using meaning.symm
    have gives := escape_gives escapes fuel fits eq
    rw [if_pos isKind] at gives
    rw [isClass]
    exact gives
  | escaped text value escapes =>
    intro expr meaning fuel c rest eq fits _
    cases meaning
    exact escape_gives escapes fuel fits eq
  | literal letter other => exact literal_gives other
  | once text pattern atom ih => exact once_gives ih
  | star text pattern atom ih => exact star_gives ih
  | plus text pattern atom ih => exact plus_gives ih
  | opt text pattern atom ih => exact opt_gives ih
  | one text pattern first ih => exact one_gives ih first.repeat_pos
  | more text rest first second front last ihFront ihLast => exact more_gives ihFront last ihLast
  | empty => exact empty_gives
  | filled text pattern inner ih => exact filled_gives inner ih
  | single text pattern branch ih => exact single_gives ih
  | alt text rest left right front last ihFront ihLast => exact alt_gives ihFront ihLast

end Aholyc.Regex
