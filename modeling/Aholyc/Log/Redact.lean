import Mathlib.Data.List.TakeWhile
import Mathlib.Tactic.Common
import Aholyc.Log.Format

/-!
# What redaction hides (lib/log/log.hc)

The rewriter takes any mix of flag characters for the flags of a conversion; the runtime ends the
conversion where they are out of order.
-/

namespace Aholyc.Log

/-! ## Scans -/

/-- What is behind the flags: nothing, or a character that is none. -/
def Stops (text : List UInt8) : Prop := ∀ byte ∈ text.head?, isRedactFlag byte = false

theorem takeWhile_append_stop {p : UInt8 → Bool} (front : List UInt8) {behind : List UInt8}
    (stops : ∀ byte ∈ behind.head?, p byte = false) :
    (front ++ behind).takeWhile p = front.takeWhile p ∧
      (front ++ behind).dropWhile p = front.dropWhile p ++ behind := by
  induction front with
  | nil =>
    cases behind with
    | nil => exact ⟨rfl, rfl⟩
    | cons byte rest =>
      have stop := stops byte rfl
      rw [List.nil_append, List.takeWhile_cons_of_neg (by rw [stop]; exact Bool.false_ne_true),
        List.dropWhile_cons_of_neg (by rw [stop]; exact Bool.false_ne_true)]
      exact ⟨rfl, rfl⟩
  | cons byte rest ih =>
    by_cases holds : p byte = true
    · rw [List.cons_append, List.takeWhile_cons_of_pos holds, List.takeWhile_cons_of_pos holds,
        List.dropWhile_cons_of_pos holds, List.dropWhile_cons_of_pos holds, ih.1]
      exact ⟨rfl, ih.2⟩
    · rw [List.cons_append, List.takeWhile_cons_of_neg holds, List.takeWhile_cons_of_neg holds,
        List.dropWhile_cons_of_neg holds, List.dropWhile_cons_of_neg holds]
      exact ⟨rfl, rfl⟩

/-! ## Notes -/

theorem noteOf_text {note more : List UInt8} (plain : 0x7D ∉ note) :
    noteOf (0x7B :: (note ++ 0x7D :: more)) = (note, more) := by
  have closed : ∀ byte ∈ (0x7D :: more : List UInt8).head?, decide (byte ≠ 0x7D) = false := by
    intro byte isHead
    cases isHead
    rfl
  have inside : ∀ byte ∈ 0x7B :: note, decide (byte ≠ (0x7D : UInt8)) = true := by
    intro byte member
    rw [decide_eq_true_iff]
    rintro rfl
    rcases List.mem_cons.mp member with other | member
    · exact absurd other (by decide)
    · exact plain member
  have scanned := takeWhile_append_stop (0x7B :: note) closed
  rw [List.takeWhile_eq_self_iff.mpr inside, List.dropWhile_eq_nil_iff.mpr inside,
    List.cons_append] at scanned
  unfold noteOf
  rw [if_neg (not_not.mpr List.head?_cons), if_neg (not_not.mpr (by simp)), scanned.1, scanned.2]
  rfl

theorem noteOf_take {text note : List UInt8} (plain : 0x7D ∉ note)
    (isText : text.take (note.length + 2) = 0x7B :: (note ++ [0x7D])) :
    noteOf text = (note, text.drop (note.length + 2)) := by
  have whole := List.take_append_drop (note.length + 2) text
  rw [isText, List.cons_append, List.append_assoc, List.singleton_append] at whole
  conv => lhs; rw [← whole]
  exact noteOf_text plain

/-- A note is read just where the code compares its text with the braces. -/
theorem noteOf_iff (text note : List UInt8) (plain : 0x7D ∉ note) (some_ : note ≠ []) :
    (noteOf text).1 = note ↔ text.take (note.length + 2) = 0x7B :: (note ++ [0x7D]) := by
  constructor
  · intro isNote
    unfold noteOf at isNote
    split at isNote
    · exact absurd isNote.symm some_
    next isOpen =>
    split at isNote
    · exact absurd isNote.symm some_
    next closed =>
    rw [not_not] at isOpen closed
    obtain ⟨rest, isText⟩ := List.head?_eq_some_iff.mp isOpen
    have split := List.takeWhile_append_dropWhile (p := (· ≠ (0x7D : UInt8))) (l := text)
    have isFront : text.takeWhile (· ≠ 0x7D) = 0x7B :: note := by
      rw [← isNote, isText, List.takeWhile_cons_of_pos (by decide), List.tail_cons]
    cases isBack : text.dropWhile (· ≠ 0x7D) with
    | nil =>
      rw [isBack, List.append_nil] at split
      rw [← split] at closed
      exact absurd (List.mem_takeWhile_imp closed) (by decide)
    | cons byte more =>
      have stop := List.head?_dropWhile_not (· ≠ (0x7D : UInt8)) text
      rw [isBack] at stop
      have isClose : byte = 0x7D := by simpa using stop
      rw [isFront, isBack, isClose] at split
      rw [← split, ← List.singleton_append (l := more), ← List.append_assoc, List.cons_append,
        List.take_left']
      rw [List.length_cons, List.length_append, List.length_singleton]
  · intro isText
    rw [noteOf_take plain isText]

/-- The specification and the rewriter read the same annotations. -/
theorem noteOf_annotation (text : List UInt8) :
    (noteOf text).2 = ( logAnnotation text).rest ∧ ∀ privacy conv,
      isSecret privacy (noteOf text).1 conv = hides privacy ( logAnnotation text).mode conv := by
  have isPublic := noteOf_iff text publicNote (by decide) (by decide)
  have isPrivate := noteOf_iff text privateNote (by decide) (by decide)
  unfold logAnnotation
  by_cases isOpen : text.head? = some 0x7B
  · rw [if_pos isOpen]
    by_cases public_ : text.take 8 = publicText
    · have isRead : noteOf text = (publicNote, text.drop 8) := noteOf_take (by decide) public_
      rw [if_pos public_, isRead]
      refine ⟨rfl, fun privacy conv => ?_⟩
      cases privacy <;> simp [isSecret, hides, publicNote, privateNote]
    rw [if_neg public_]
    by_cases private_ : text.take 9 = privateText
    · have isRead : noteOf text = (privateNote, text.drop 9) := noteOf_take (by decide) private_
      rw [if_pos private_, isRead]
      refine ⟨rfl, fun privacy conv => ?_⟩
      simp [isSecret, hides]
    rw [if_neg private_]
    have notPublic : (noteOf text).1 ≠ publicNote := fun isNote => public_ (isPublic.mp isNote)
    have notPrivate : (noteOf text).1 ≠ privateNote := fun isNote => private_ (isPrivate.mp isNote)
    constructor
    · unfold noteOf
      rw [if_neg (not_not.mpr isOpen)]
      by_cases closed : 0x7D ∈ text
      · rw [if_neg (not_not.mpr closed)]
      · have passes : ∀ byte ∈ text, decide (byte ≠ (0x7D : UInt8)) = true := by
          intro byte member
          rw [decide_eq_true_iff]
          rintro rfl
          exact closed member
        rw [if_pos closed, List.dropWhile_eq_nil_iff.mpr passes]
        rfl
    · intro privacy conv
      unfold isSecret hides
      rw [decide_eq_false notPrivate]
      cases privacy <;> simp [notPublic]
  · rw [if_neg isOpen]
    unfold noteOf
    rw [if_pos isOpen]
    refine ⟨rfl, fun privacy conv => ?_⟩
    cases privacy <;> simp [isSecret, hides, publicNote, privateNote]

variable {byte : UInt8}

theorem isFlag_redact (isNot : isRedactFlag byte = false) :
    isFlag byte = false ∧ isDigit byte = false ∧ byte ≠ 0x2E := by
  simp only [isRedactFlag, decide_eq_false_iff_not, not_or] at isNot
  have ⟨minus, zero, plus, blank, dot, digit⟩ := isNot
  refine ⟨?_, ?_, dot⟩
  · rw [isFlag, decide_eq_false_iff_not]
    rintro (same | same | same | same)
    · exact minus same
    · exact zero same
    · exact plus same
    · exact blank same
  · rw [isDigit, decide_eq_false_iff_not]
    exact digit

theorem hcSpec_append (front : List UInt8) {behind : List UInt8} (stops : Stops behind) :
    hcSpec (front ++ behind) = ((hcSpec front).1, (hcSpec front).2 ++ behind) := by
  have flags := takeWhile_append_stop front fun byte head => (isFlag_redact (stops byte head)).1
  have width := takeWhile_append_stop (front.dropWhile isFlag) fun byte head =>
    (isFlag_redact (stops byte head)).2.1
  unfold hcSpec
  dsimp only
  rw [flags.1, flags.2, width.1, width.2]
  cases isTail : (front.dropWhile isFlag).dropWhile isDigit with
  | nil =>
    have noDot : behind.head? ≠ some 0x2E := by
      intro isDot
      exact (isFlag_redact (stops _ isDot)).2.2 rfl
    rw [List.nil_append, if_neg noDot]
    rfl
  | cons byte rest =>
    have digits := takeWhile_append_stop rest fun byte head =>
      (isFlag_redact (stops byte head)).2.1
    rw [List.cons_append, List.head?_cons, List.head?_cons, List.tail_cons, List.tail_cons]
    split
    · rw [digits.1, digits.2]
    · rfl

theorem hcSpec_split (text : List UInt8) : (hcSpec text).1 ++ (hcSpec text).2 = text := by
  unfold hcSpec
  dsimp only
  split
  next isDot =>
    have ⟨rest, isRest⟩ := List.head?_eq_some_iff.mp isDot
    rw [isRest, List.tail_cons]
    dsimp only
    rw [List.append_assoc, List.cons_append, List.takeWhile_append_dropWhile, ← isRest,
      List.append_assoc, List.takeWhile_append_dropWhile, List.takeWhile_append_dropWhile]
  next =>
    dsimp only
    rw [List.append_assoc, List.takeWhile_append_dropWhile, List.takeWhile_append_dropWhile]

theorem logSpec_split (text : List UInt8) : (logSpec text).1 ++ (logSpec text).2 = text :=
  List.takeWhile_append_dropWhile

theorem logSpec_stops (text : List UInt8) : Stops (logSpec text).2 := by
  intro byte head
  have stops := List.head?_dropWhile_not isRedactFlag text
  have isHead : (text.dropWhile isRedactFlag).head? = some byte := head
  rw [isHead] at stops
  exact stops

theorem logSpec_flags {text : List UInt8} (member : byte ∈ (logSpec text).1) :
    isRedactFlag byte = true := List.mem_takeWhile_imp member

theorem isRedactFlag_not_percent (isFlag : isRedactFlag byte = true) : byte ≠ 0x25 := by
  intro same
  rw [same] at isFlag
  exact absurd isFlag (by decide)

/-- A flag out of order is no conversion: it is printed, and the argument is dropped. -/
theorem hcConversion_flag {libc : Libc} {spec : List UInt8} {a : Int}
    (isFlag : isRedactFlag byte = true) : hcConversion libc spec byte a = [0x25, byte] := by
  have other : ∀ conv : UInt8, isRedactFlag conv = false → byte ≠ conv := by
    intro conv isNot same
    rw [same, isNot] at isFlag
    cases isFlag
  unfold hcConversion
  dsimp only
  rw [if_neg, if_neg (other _ (by decide)), if_neg, if_neg, if_neg (other _ (by decide)),
    if_neg (other _ (by decide)), if_neg]
  · rintro (same | same | same) <;> exact other _ (by decide) same
  · rintro (same | same) <;> exact other _ (by decide) same
  · rintro (same | same | same) <;> exact other _ (by decide) same
  · rintro (same | same) <;> exact other _ (by decide) same

/-! ## Plain text -/

theorem hcFormat_literal {libc : Libc} (plain : byte ≠ 0x25) (rest : List UInt8) (args : List Int) :
    hcFormat libc (byte :: rest) args = byte :: hcFormat libc rest args := by
  rw [hcFormat, if_pos plain]

theorem hcFormat_plain {libc : Libc} {front : List UInt8} (plain : ∀ byte ∈ front, byte ≠ 0x25)
    (rest : List UInt8) (args : List Int) :
    hcFormat libc (front ++ rest) args = front ++ hcFormat libc rest args := by
  induction front with
  | nil => rfl
  | cons byte front ih =>
    rw [List.cons_append, hcFormat_literal (plain byte List.mem_cons_self), ih]
    · rfl
    · intro byte member
      exact plain byte (List.mem_cons_of_mem _ member)

theorem hcFormat_percent {libc : Libc} (rest : List UInt8) (args : List Int) :
    hcFormat libc (0x25 :: 0x25 :: rest) args = 0x25 :: hcFormat libc rest args := by
  rw [hcFormat, if_neg (by decide), if_pos List.head?_cons]
  rfl

theorem redactedText_percent {libc : Libc} {privacy : Bool} (rest : List UInt8) (args : List Int) :
    redactedText libc privacy (0x25 :: 0x25 :: rest) args =
      0x25 :: redactedText libc privacy rest args := by
  rw [redactedText, if_neg (by decide), if_pos List.head?_cons]
  rfl

theorem redactedText_plain {libc : Libc} {privacy : Bool} {front : List UInt8}
    (plain : ∀ byte ∈ front, byte ≠ 0x25) (rest : List UInt8) (args : List Int) :
    redactedText libc privacy (front ++ rest) args =
      front ++ redactedText libc privacy rest args := by
  induction front with
  | nil => rfl
  | cons byte front ih =>
    rw [List.cons_append, redactedText, if_pos (plain byte List.mem_cons_self), ih]
    · rfl
    · intro byte member
      exact plain byte (List.mem_cons_of_mem _ member)

/-! ## Conversions -/

/-- The rewriter comes to a conversion with this text behind its `%`. -/
inductive Reaches : List UInt8 → List UInt8 → Prop
  | here (rest : List UInt8) (conversion : rest.head? ≠ some 0x25) : Reaches (0x25 :: rest) rest
  | literal (byte : UInt8) (rest found : List UInt8) (plain : byte ≠ 0x25)
      (reaches : Reaches rest found) : Reaches (byte :: rest) found
  | percent (rest found : List UInt8) (reaches : Reaches rest found) :
      Reaches (0x25 :: 0x25 :: rest) found
  | behind (rest found : List UInt8) (conversion : rest.head? ≠ some 0x25)
      (reaches : Reaches (logSpec ( logAnnotation rest).rest).2.tail found) :
      Reaches (0x25 :: rest) found

/-- An annotation is a known one, or it is closed and as long as what it is compared with. -/
def Closed (rest : List UInt8) : Prop :=
  rest.head? = some 0x7B →
    rest.take 8 = publicText ∨ rest.take 9 = privateText ∨ 8 ≤ rest.length ∧ 0x7D ∈ rest

def Ordered (spec : List UInt8) : Prop := (hcSpec spec).2 = []

/-- A hidden conversion has its flags in order, and no conversion ends in a `%` but behind flags
in order. -/
def Agrees (privacy : Bool) (rest : List UInt8) : Prop :=
  if hides privacy ( logAnnotation rest).mode (logSpec ( logAnnotation rest).rest).2.head? then
    Ordered (logSpec ( logAnnotation rest).rest).1
  else (logSpec ( logAnnotation rest).rest).2.head? = some 0x25 →
    Ordered (logSpec ( logAnnotation rest).rest).1 ∧ (logSpec ( logAnnotation rest).rest).1 ≠ []

variable {libc : Libc} {privacy : Bool} {rest spec behind : List UInt8} {args : List Int}

theorem hcFormat_conversion (conversion : rest.head? ≠ some 0x25) :
    hcFormat libc (0x25 :: rest) args =
      (hcSpec rest).2.head?.elim [] fun conv =>
        hcConversion libc (hcSpec rest).1 conv (args.head?.getD 0) ++
          hcFormat libc (hcSpec rest).2.tail args.tail := by
  rw [hcFormat, if_neg (by decide), if_neg conversion]
  cases (hcSpec rest).2.head? <;> rfl

/-- The runtime takes the whole of a conversion whose flags are in order. -/
theorem hcFormat_ordered (ordered : Ordered spec) (stops : Stops behind)
    (conversion : (spec ++ behind).head? ≠ some 0x25) :
    hcFormat libc (0x25 :: (spec ++ behind)) args =
      behind.head?.elim [] fun conv => hcConversion libc spec conv (args.head?.getD 0) ++
        hcFormat libc behind.tail args.tail := by
  have whole := hcSpec_split spec
  have scanned := hcSpec_append spec stops
  unfold Ordered at ordered
  rw [ordered, List.append_nil] at whole
  rw [ordered, List.nil_append, whole] at scanned
  rw [hcFormat_conversion conversion, scanned]

/-- Of a conversion with flags out of order the runtime prints what it does not take. -/
theorem hcFormat_mixed {flag : UInt8} {flags : List UInt8} (mixed : (hcSpec spec).2 = flag :: flags)
    (areFlags : ∀ byte ∈ spec, isRedactFlag byte = true) (stops : Stops behind) :
    hcFormat libc (0x25 :: (spec ++ behind)) args =
      0x25 :: flag :: flags ++ hcFormat libc behind args.tail := by
  have member : ∀ byte ∈ flag :: flags, byte ∈ spec := by
    intro byte inTail
    rw [← mixed] at inTail
    rw [← hcSpec_split spec]
    exact List.mem_append_right _ inTail
  have conversion : (spec ++ behind).head? ≠ some 0x25 := by
    intro isPercent
    cases isSpec : spec with
    | nil =>
      rw [isSpec] at member
      exact List.not_mem_nil (member flag List.mem_cons_self)
    | cons byte rest =>
      rw [isSpec, List.cons_append, List.head?_cons] at isPercent
      rw [isSpec] at areFlags
      exact isRedactFlag_not_percent (areFlags byte List.mem_cons_self) (Option.some.inj isPercent)
  rw [hcFormat_conversion conversion, hcSpec_append spec stops, mixed]
  change hcConversion libc _ flag _ ++ hcFormat libc (flags ++ behind) args.tail = _
  rw [hcConversion_flag (areFlags flag (member flag List.mem_cons_self)), hcFormat_plain]
  · rfl
  · intro byte inFlags
    exact isRedactFlag_not_percent (areFlags byte (member byte (List.mem_cons_of_mem _ inFlags)))

theorem redactedText_conversion (conversion : rest.head? ≠ some 0x25) :
    redactedText libc privacy (0x25 :: rest) args =
      if hides privacy ( logAnnotation rest).mode (hcSpec ( logAnnotation rest).rest).2.head? then
        logRedacted ++
          redactedText libc privacy (hcSpec ( logAnnotation rest).rest).2.tail args.tail
      else (hcSpec ( logAnnotation rest).rest).2.head?.elim [] fun conv =>
        hcConversion libc (hcSpec ( logAnnotation rest).rest).1 conv (args.head?.getD 0) ++
          redactedText libc privacy (hcSpec ( logAnnotation rest).rest).2.tail args.tail := by
  obtain ⟨behind_, secret⟩ := noteOf_annotation rest
  rw [redactedText, if_neg (by decide), if_neg conversion, behind_]
  dsimp only
  rw [secret]
  split
  · rfl
  · cases (hcSpec ( logAnnotation rest).rest).2.head? <;> rfl

theorem logRedactFormat_hidden (conversion : rest.head? ≠ some 0x25)
    (isHidden : hides privacy ( logAnnotation rest).mode
      (logSpec ( logAnnotation rest).rest).2.head? = true) :
    logRedactFormat privacy (0x25 :: rest) args =
      ⟨logRedacted ++ (logRedactFormat privacy (logSpec ( logAnnotation rest).rest).2.tail
          args.tail).format,
        (logRedactFormat privacy (logSpec ( logAnnotation rest).rest).2.tail args.tail).argv,
        ( logAnnotation rest).overread ||
          (logRedactFormat privacy (logSpec ( logAnnotation rest).rest).2.tail
            args.tail).overread⟩ := by
  rw [logRedactFormat, if_neg (by decide), if_neg conversion]
  exact if_pos isHidden

theorem logRedactFormat_visible (conversion : rest.head? ≠ some 0x25)
    (visible : hides privacy ( logAnnotation rest).mode
      (logSpec ( logAnnotation rest).rest).2.head? = false) :
    logRedactFormat privacy (0x25 :: rest) args =
      ⟨0x25 :: ((logSpec ( logAnnotation rest).rest).1 ++
          (logSpec ( logAnnotation rest).rest).2.head?.toList) ++
            (logRedactFormat privacy (logSpec ( logAnnotation rest).rest).2.tail args.tail).format,
        (if (logSpec ( logAnnotation rest).rest).2.head?.isSome then args.head?.toList else []) ++
          (logRedactFormat privacy (logSpec ( logAnnotation rest).rest).2.tail args.tail).argv,
        ( logAnnotation rest).overread || decide (rest.head? = some 0x7B ∧ 0x7D ∉ rest) ||
          (logRedactFormat privacy (logSpec ( logAnnotation rest).rest).2.tail
            args.tail).overread⟩ := by
  rw [logRedactFormat, if_neg (by decide), if_neg conversion]
  apply if_neg
  rw [visible]
  exact Bool.false_ne_true

theorem logRedactFormat_nil : logRedactFormat privacy [] args = ⟨[], [], false⟩ := by
  rw [logRedactFormat]

theorem logRedactFormat_literal (plain : byte ≠ 0x25) :
    logRedactFormat privacy (byte :: rest) args =
      { logRedactFormat privacy rest args with
        format := byte :: (logRedactFormat privacy rest args).format } := by
  rw [logRedactFormat, if_pos plain]

theorem logRedactFormat_percent :
    logRedactFormat privacy (0x25 :: 0x25 :: rest) args =
      { logRedactFormat privacy rest args with
        format := 0x25 :: 0x25 :: (logRedactFormat privacy rest args).format } := by
  rw [logRedactFormat, if_neg (by decide), if_pos List.head?_cons]
  rfl

/-- A format is gone through byte by byte, and over each conversion to what is `next`. -/
theorem format_induction {motive : List UInt8 → Prop} (next : List UInt8 → List UInt8)
    (shorter : ∀ rest, (next rest).length ≤ rest.length) (nil : motive [])
    (literal : ∀ byte rest, byte ≠ 0x25 → motive rest → motive (byte :: rest))
    (percent : ∀ rest, motive rest → motive (0x25 :: 0x25 :: rest))
    (conversion : ∀ rest, rest.head? ≠ some 0x25 → motive (next rest) → motive (0x25 :: rest))
    (fmt : List UInt8) : motive fmt := by
  have bounded : ∀ n (fmt : List UInt8), fmt.length ≤ n → motive fmt := by
    intro n
    induction n with
    | zero =>
      intro fmt short
      rw [List.eq_nil_of_length_eq_zero (Nat.le_zero.mp short)]
      exact nil
    | succ n ih =>
      intro fmt short
      cases fmt with
      | nil => exact nil
      | cons byte rest =>
        rw [List.length_cons] at short
        by_cases plain : byte = 0x25
        · rw [plain]
          by_cases isPercent : rest.head? = some 0x25
          · have ⟨behind, isRest⟩ := List.head?_eq_some_iff.mp isPercent
            rw [isRest, List.length_cons] at short
            rw [isRest]
            exact percent behind (ih behind (by omega))
          · apply conversion rest isPercent
            apply ih
            have length := shorter rest
            omega
        · exact literal byte rest plain (ih rest (by omega))
  exact bounded fmt.length fmt (Nat.le_refl _)

def logNext (rest : List UInt8) : List UInt8 := (logSpec ( logAnnotation rest).rest).2.tail

theorem logNext_length (rest : List UInt8) : (logNext rest).length ≤ rest.length := by
  have length := logAnnotation_length rest
  have length' := logSpec_length ( logAnnotation rest).rest
  unfold logNext
  rw [List.length_tail]
  omega

def hcNext (rest : List UInt8) : List UInt8 := (hcSpec ( logAnnotation rest).rest).2.tail

theorem hcNext_length (rest : List UInt8) : (hcNext rest).length ≤ rest.length := by
  have length := logAnnotation_length rest
  have length' := hcSpec_length ( logAnnotation rest).rest
  unfold hcNext
  rw [List.length_tail]
  omega

theorem logRedactFormat_no_args (fmt : List UInt8) :
    (logRedactFormat privacy fmt []).argv = [] := by
  induction fmt using format_induction logNext logNext_length with
  | nil => rw [logRedactFormat_nil]
  | literal byte rest plain ih =>
    rw [logRedactFormat_literal plain]
    exact ih
  | percent rest ih =>
    rw [logRedactFormat_percent]
    exact ih
  | conversion rest conversion ih =>
    cases isHidden : hides privacy ( logAnnotation rest).mode
        (logSpec ( logAnnotation rest).rest).2.head? with
    | true =>
      rw [logRedactFormat_hidden conversion isHidden]
      exact ih
    | false =>
      rw [logRedactFormat_visible conversion isHidden]
      change (if _ then [] else []) ++ _ = []
      rw [ite_self]
      exact ih

/-! ## The text -/

/-- The arguments that are left belong to the conversions that are left. -/
theorem kept_argument (conv : UInt8) (more : List Int)
    (none_ : args = [] → more = []) :
    ((if (some conv).isSome then args.head?.toList else []) ++ more).head?.getD 0 =
        args.head?.getD 0 ∧
      ((if (some conv).isSome then args.head?.toList else []) ++ more).tail = more := by
  cases args with
  | nil =>
    rw [none_ rfl]
    exact ⟨rfl, rfl⟩
  | cons a args => exact ⟨rfl, rfl⟩

theorem not_percent {spec behind : List UInt8} (areFlags : ∀ byte ∈ spec, isRedactFlag byte = true)
    (notPercent : behind.head? = some 0x25 → spec ≠ []) :
    (spec ++ behind).head? ≠ some 0x25 := by
  intro isPercent
  cases spec with
  | nil => exact notPercent isPercent rfl
  | cons byte rest =>
    exact isRedactFlag_not_percent (areFlags byte List.mem_cons_self) (Option.some.inj isPercent)

theorem hides_flag {mode : Mode} {flag : UInt8} {conv : Option UInt8}
    (isFlag : isRedactFlag flag = true) (visible : hides privacy mode conv = false) :
    hides privacy mode (some flag) = false := by
  have notS : some flag ≠ some 0x73 := by
    intro same
    rw [Option.some.inj same] at isFlag
    exact absurd isFlag (by decide)
  unfold hides at visible ⊢
  rw [decide_eq_false_iff_not, not_or] at visible ⊢
  exact ⟨visible.1, fun isS => notS isS.1⟩

/-- The text of a visible conversion: what the runtime takes of it, or what it prints of it. -/
theorem visible_conversion {mode : Mode} {spec behind format : List UInt8} {argv : List Int}
    (areFlags : ∀ byte ∈ spec, isRedactFlag byte = true) (stops : Stops behind)
    (visible : hides privacy mode behind.head? = false)
    (agrees : behind.head? = some 0x25 → Ordered spec ∧ spec ≠ [])
    (none_ : args = [] → argv = []) (ends : behind = [] → format = [] ∧ argv = [])
    (same : hcFormat libc format argv = redactedText libc privacy behind.tail args.tail) :
    hcFormat libc (0x25 :: (spec ++ behind.head?.toList) ++ format)
        ((if behind.head?.isSome then args.head?.toList else []) ++ argv) =
      if hides privacy mode ((hcSpec spec).2 ++ behind).head? then
        logRedacted ++ redactedText libc privacy ((hcSpec spec).2 ++ behind).tail args.tail
      else ((hcSpec spec).2 ++ behind).head?.elim [] fun conv =>
        hcConversion libc (hcSpec spec).1 conv (args.head?.getD 0) ++
          redactedText libc privacy ((hcSpec spec).2 ++ behind).tail args.tail := by
  have stops' : Stops (behind.head?.toList ++ format) := by
    intro byte head
    cases behind with
    | nil =>
      rw [(ends rfl).1] at head
      cases head
    | cons conv rest => exact stops byte head
  have notPercent : (spec ++ (behind.head?.toList ++ format)).head? ≠ some 0x25 := by
    apply not_percent areFlags
    cases behind with
    | nil =>
      rw [(ends rfl).1]
      intro isPercent
      cases isPercent
    | cons conv rest => exact fun isPercent => (agrees isPercent).2
  rw [List.cons_append, List.append_assoc]
  cases mixed : (hcSpec spec).2 with
  | nil =>
    have whole := hcSpec_split spec
    rw [mixed, List.append_nil] at whole
    rw [hcFormat_ordered mixed stops' notPercent, List.nil_append, whole, visible,
      if_neg Bool.false_ne_true]
    cases behind with
    | nil =>
      rw [(ends rfl).1]
      rfl
    | cons conv rest =>
      have kept := kept_argument conv argv none_
      change hcConversion libc spec conv _ ++ hcFormat libc format _ = _
      rw [List.head?_cons, kept.1, kept.2, same]
      rfl
  | cons flag flags =>
    have inSpec : ∀ byte ∈ flag :: flags, byte ∈ spec := by
      intro byte member
      rw [← mixed] at member
      rw [← hcSpec_split spec]
      exact List.mem_append_right _ member
    have isFlag := areFlags flag (inSpec flag List.mem_cons_self)
    have plain : ∀ byte ∈ flags, byte ≠ 0x25 := by
      intro byte member
      exact isRedactFlag_not_percent (areFlags byte (inSpec byte (List.mem_cons_of_mem _ member)))
    have taken : flag :: flags ++ behind = flag :: (flags ++ behind) := rfl
    rw [hcFormat_mixed mixed areFlags stops', taken, List.head?_cons, List.tail_cons,
      hides_flag isFlag visible, if_neg Bool.false_ne_true]
    change _ = hcConversion libc _ flag _ ++ redactedText libc privacy (flags ++ behind) args.tail
    rw [hcConversion_flag isFlag, redactedText_plain plain]
    cases behind with
    | nil =>
      rw [(ends rfl).1, redactedText, List.head?_nil]
      change _ ++ hcFormat libc [] _ = _
      rw [hcFormat]
      rfl
    | cons conv rest =>
      have kept := kept_argument conv argv none_
      have literal : conv ≠ 0x25 := by
        intro isPercent
        have ordered := (agrees (congrArg some isPercent)).1
        unfold Ordered at ordered
        rw [mixed] at ordered
        cases ordered
      change _ ++ hcFormat libc (conv :: format) _ = _
      rw [List.head?_cons, kept.2, hcFormat_literal literal, same, redactedText, if_pos literal]
      rfl

theorem logRedacted_plain : ∀ byte ∈ logRedacted, byte ≠ 0x25 := by
  have all : logRedacted.all (fun byte => byte ≠ 0x25) = true := by decide
  intro byte member
  exact of_decide_eq_true (List.all_eq_true.mp all byte member)

theorem hcFormat_redacted (fmt : List UInt8)
    (agrees : ∀ rest, Reaches fmt rest → Agrees privacy rest) :
    ∀ args, hcFormat libc (logRedactFormat privacy fmt args).format
      (logRedactFormat privacy fmt args).argv = redactedText libc privacy fmt args := by
  induction fmt using format_induction logNext logNext_length with
  | nil =>
    intro args
    rw [logRedactFormat_nil, redactedText, hcFormat]
  | literal byte rest plain ih =>
    intro args
    rw [logRedactFormat_literal plain, redactedText, if_pos plain, hcFormat_literal plain, ih]
    intro found reaches
    exact agrees found (Reaches.literal byte rest found plain reaches)
  | percent rest ih =>
    intro args
    rw [logRedactFormat_percent, redactedText_percent, hcFormat_percent, ih]
    intro found reaches
    exact agrees found (Reaches.percent rest found reaches)
  | conversion rest conversion ih =>
    intro args
    have own := agrees rest (Reaches.here rest conversion)
    have behind_ := ih fun found reaches =>
      agrees found (Reaches.behind rest found conversion reaches)
    have scanned := hcSpec_append (logSpec ( logAnnotation rest).rest).1
      (logSpec_stops ( logAnnotation rest).rest)
    rw [logSpec_split] at scanned
    unfold Agrees at own
    cases isHidden : hides privacy ( logAnnotation rest).mode
        (logSpec ( logAnnotation rest).rest).2.head? with
    | false =>
      rw [if_neg (by rw [isHidden]; exact Bool.false_ne_true)] at own
      rw [logRedactFormat_visible conversion isHidden, redactedText_conversion conversion, scanned]
      apply visible_conversion (fun _ => logSpec_flags) (logSpec_stops _) isHidden own
      · intro none_
        rw [none_]
        exact logRedactFormat_no_args _
      · intro ends
        rw [ends, List.tail_nil, logRedactFormat_nil]
        exact ⟨rfl, rfl⟩
      · exact behind_ args.tail
    | true =>
      rw [if_pos isHidden] at own
      unfold Ordered at own
      rw [own, List.nil_append] at scanned
      rw [logRedactFormat_hidden conversion isHidden, redactedText_conversion conversion, scanned,
        if_pos isHidden, hcFormat_plain logRedacted_plain]
      exact congrArg (logRedacted ++ ·) (behind_ args.tail)

/-! ## Memory -/

theorem logAnnotation_overread (rest : List UInt8) :
    (( logAnnotation rest).overread || decide (rest.head? = some 0x7B ∧ 0x7D ∉ rest)) = false ↔
      Closed rest := by
  unfold Closed logAnnotation
  by_cases isOpen : rest.head? = some 0x7B
  · rw [if_pos isOpen, Bool.or_eq_false_iff, decide_eq_false_iff_not]
    by_cases isPublic : rest.take 8 = publicText
    · rw [if_pos isPublic]
      apply iff_of_true
      · refine ⟨rfl, fun unclosed => unclosed.2 (List.mem_of_mem_take (i := 8) ?_)⟩
        rw [isPublic]
        decide
      · exact fun _ => Or.inl isPublic
    · rw [if_neg isPublic]
      by_cases isPrivate : rest.take 9 = privateText
      · rw [if_pos isPrivate]
        apply iff_of_true
        · refine ⟨rfl, fun unclosed => unclosed.2 (List.mem_of_mem_take (i := 9) ?_)⟩
          rw [isPrivate]
          decide
        · exact fun _ => Or.inr (Or.inl isPrivate)
      · rw [if_neg isPrivate]
        dsimp only
        rw [decide_eq_false_iff_not]
        constructor
        · intro ⟨long, closed⟩ _
          refine Or.inr (Or.inr ⟨by omega, ?_⟩)
          by_contra unclosed
          exact closed ⟨isOpen, unclosed⟩
        · intro known
          have ⟨long, closed⟩ := ((known isOpen).resolve_left isPublic).resolve_left isPrivate
          exact ⟨by omega, fun unclosed => unclosed.2 closed⟩
  · rw [if_neg isOpen]
    apply iff_of_true
    · rw [Bool.or_eq_false_iff, decide_eq_false_iff_not]
      exact ⟨rfl, fun unclosed => isOpen unclosed.1⟩
    · exact fun opened => absurd opened isOpen

theorem hidden_closed (isHidden : hides privacy ( logAnnotation rest).mode
    (logSpec ( logAnnotation rest).rest).2.head? = true) :
    decide (rest.head? = some 0x7B ∧ 0x7D ∉ rest) = false := by
  rw [decide_eq_false_iff_not]
  intro ⟨isOpen, unclosed⟩
  have notPublic : rest.take 8 ≠ publicText := by
    intro isPublic
    apply unclosed
    apply List.mem_of_mem_take (i := 8)
    rw [isPublic]
    decide
  have notPrivate : rest.take 9 ≠ privateText := by
    intro isPrivate
    apply unclosed
    apply List.mem_of_mem_take (i := 9)
    rw [isPrivate]
    decide
  have skipped : rest.dropWhile (fun byte => byte ≠ 0x7D) = [] := by
    rw [List.dropWhile_eq_nil_iff]
    intro byte member
    rw [decide_eq_true_eq]
    intro same
    rw [same] at member
    exact unclosed member
  unfold logAnnotation at isHidden
  rw [if_pos isOpen, if_neg notPublic, if_neg notPrivate, skipped] at isHidden
  cases privacy <;> cases isHidden

theorem reaches_iff (conversion : rest.head? ≠ some 0x25) (found : List UInt8) :
    Reaches (0x25 :: rest) found ↔ found = rest ∨ Reaches (logNext rest) found := by
  constructor
  · intro reaches
    cases reaches with
    | here _ _ => exact Or.inl rfl
    | literal _ _ _ plain _ => exact absurd rfl plain
    | percent rest _ _ => exact absurd List.head?_cons conversion
    | behind _ _ _ reaches => exact Or.inr reaches
  · intro reaches
    cases reaches with
    | inl same =>
      rw [same]
      exact Reaches.here rest conversion
    | inr reaches => exact Reaches.behind rest found conversion reaches

theorem logRedactFormat_overread (fmt : List UInt8) : ∀ args,
    (logRedactFormat privacy fmt args).overread = false ↔
      ∀ rest, Reaches fmt rest → Closed rest := by
  induction fmt using format_induction logNext logNext_length with
  | nil =>
    intro args
    rw [logRedactFormat_nil]
    apply iff_of_true rfl
    intro rest reaches
    cases reaches
  | literal byte rest plain ih =>
    intro args
    rw [logRedactFormat_literal plain]
    apply (ih args).trans
    constructor
    · intro closed found reaches
      cases reaches with
      | literal _ _ _ _ reaches => exact closed found reaches
      | here _ _ => exact absurd rfl plain
      | percent _ _ _ => exact absurd rfl plain
      | behind _ _ _ _ => exact absurd rfl plain
    · intro closed found reaches
      exact closed found (Reaches.literal byte rest found plain reaches)
  | percent rest ih =>
    intro args
    rw [logRedactFormat_percent]
    apply (ih args).trans
    constructor
    · intro closed found reaches
      cases reaches with
      | literal _ _ _ plain _ => exact absurd rfl plain
      | here _ conversion => exact absurd List.head?_cons conversion
      | percent _ _ reaches => exact closed found reaches
      | behind _ _ conversion _ => exact absurd List.head?_cons conversion
    · intro closed found reaches
      exact closed found (Reaches.percent rest found reaches)
  | conversion rest conversion ih =>
    intro args
    have own := logAnnotation_overread rest
    have behind_ := ih args.tail
    have all : (∀ found, Reaches (0x25 :: rest) found → Closed found) ↔
        Closed rest ∧ ∀ found, Reaches (logNext rest) found → Closed found := by
      constructor
      · intro closed
        refine ⟨closed rest (Reaches.here rest conversion), ?_⟩
        intro found reaches
        exact closed found (Reaches.behind rest found conversion reaches)
      · intro closed found reaches
        cases (reaches_iff conversion found).mp reaches with
        | inl same =>
          rw [same]
          exact closed.1
        | inr reaches => exact closed.2 found reaches
    rw [all, ← own, ← behind_]
    cases isHidden : hides privacy ( logAnnotation rest).mode
        (logSpec ( logAnnotation rest).rest).2.head? with
    | false =>
      rw [logRedactFormat_visible conversion isHidden]
      exact Bool.or_eq_false_iff
    | true =>
      rw [logRedactFormat_hidden conversion isHidden, hidden_closed isHidden, Bool.or_false]
      exact Bool.or_eq_false_iff

theorem logRedactFormat_length (fmt : List UInt8) : ∀ args,
    (logRedactFormat privacy fmt args).format.length ≤ fmt.length * logRedacted.length ∧
      (logRedactFormat privacy fmt args).argv.length ≤ args.length := by
  have size : logRedacted.length = 9 := rfl
  rw [size]
  induction fmt using format_induction logNext logNext_length with
  | nil =>
    intro args
    rw [logRedactFormat_nil]
    exact ⟨Nat.zero_le _, Nat.zero_le _⟩
  | literal byte rest plain ih =>
    intro args
    have ⟨length, count⟩ := ih args
    rw [logRedactFormat_literal plain]
    refine ⟨?_, count⟩
    rw [List.length_cons, List.length_cons]
    omega
  | percent rest ih =>
    intro args
    have ⟨length, count⟩ := ih args
    rw [logRedactFormat_percent]
    refine ⟨?_, count⟩
    rw [List.length_cons, List.length_cons, List.length_cons, List.length_cons]
    omega
  | conversion rest conversion ih =>
    intro args
    have ⟨length, count⟩ := ih args.tail
    have shorter := logNext_length rest
    have behind_ := logAnnotation_length rest
    have split := congrArg List.length (logSpec_split ( logAnnotation rest).rest)
    unfold logNext at length count shorter
    rw [List.length_append] at split
    rw [List.length_tail] at length count shorter
    cases isHidden : hides privacy ( logAnnotation rest).mode
        (logSpec ( logAnnotation rest).rest).2.head? with
    | true =>
      rw [logRedactFormat_hidden conversion isHidden]
      constructor
      · rw [List.length_append, List.length_cons, size]
        omega
      · exact Nat.le_trans count (Nat.sub_le _ _)
    | false =>
      rw [logRedactFormat_visible conversion isHidden]
      dsimp only
      rw [List.length_append, List.length_append, List.length_cons, List.length_append,
        List.length_cons]
      cases isBehind : (logSpec ( logAnnotation rest).rest).2 with
      | nil =>
        rw [isBehind] at length split count
        rw [List.tail_nil] at length count
        change _ + 0 + 1 + _ ≤ _ ∧ 0 + _ ≤ _
        rw [List.tail_nil]
        rw [List.length_nil] at length split
        omega
      | cons conv more =>
        rw [isBehind] at length split count
        rw [List.tail_cons] at length count
        rw [List.length_cons] at length split
        change _ + 1 + 1 + _ ≤ _ ∧ args.head?.toList.length + _ ≤ _
        rw [List.tail_cons]
        have kept : args.head?.toList.length + (args.length - 1) ≤ args.length := by
          cases args with
          | nil => exact Nat.le_refl 0
          | cons a args =>
            change 1 + (args.length + 1 - 1) ≤ args.length + 1
            omega
        omega

/-! ## Arguments -/

/-- The values of hidden arguments do not come into the text. -/
theorem redactedText_hidden (fmt : List UInt8) : ∀ args args' : List Int,
    (∀ k : Nat, (hidden privacy fmt)[k]? ≠ some true → args[k]? = args'[k]?) →
      redactedText libc privacy fmt args = redactedText libc privacy fmt args' := by
  induction fmt using format_induction hcNext hcNext_length with
  | nil =>
    intro args args' _
    rw [redactedText, redactedText]
  | literal byte rest plain ih =>
    intro args args' same
    rw [hidden, if_pos plain] at same
    rw [redactedText, redactedText, if_pos plain, if_pos plain, ih args args' same]
  | percent rest ih =>
    intro args args' same
    rw [hidden, if_neg (by decide), if_pos List.head?_cons] at same
    rw [redactedText_percent, redactedText_percent, ih args args' same]
  | conversion rest conversion ih =>
    intro args args' same
    obtain ⟨behind_, secret⟩ := noteOf_annotation rest
    rw [hidden, if_neg (by decide), if_neg conversion, behind_, secret] at same
    have tails := ih args.tail args'.tail fun k visible => by
      rw [List.getElem?_tail, List.getElem?_tail]
      exact same (k + 1) visible
    unfold hcNext at tails
    rw [redactedText_conversion conversion, redactedText_conversion conversion, tails]
    cases isHidden : hides privacy ( logAnnotation rest).mode
        (hcSpec ( logAnnotation rest).rest).2.head? with
    | true => rfl
    | false =>
      have heads : args.head? = args'.head? := by
        rw [List.head?_eq_getElem?, List.head?_eq_getElem?]
        apply same 0
        rw [isHidden]
        intro isTrue
        cases isTrue
      rw [heads]

/-! ## Formats without annotations -/

theorem logHasAnnotation_suffix {text whole : List UInt8} (isSuffix : text <:+ whole)
    (plain : logHasAnnotation whole = false) : logHasAnnotation text = false := by
  induction whole with
  | nil =>
    rw [List.suffix_nil.mp isSuffix]
    rfl
  | cons byte rest ih =>
    rw [ logHasAnnotation, decide_eq_false_iff_not, not_or] at plain
    cases List.suffix_cons_iff.mp isSuffix with
    | inl same =>
      rw [same, logHasAnnotation, decide_eq_false_iff_not, not_or]
      exact plain
    | inr inRest =>
      apply ih inRest
      rw [← Bool.not_eq_true]
      exact plain.2

theorem plain_conversion (plain : logHasAnnotation (0x25 :: rest) = false) :
    logAnnotation rest = ⟨.default, rest, false⟩ := by
  rw [ logHasAnnotation, decide_eq_false_iff_not, not_or] at plain
  unfold logAnnotation
  apply if_neg
  intro isOpen
  exact plain.1 ⟨rfl, isOpen⟩

theorem hcFormat_plain_text (fmt : List UInt8) : ∀ args, logHasAnnotation fmt = false →
    hcFormat libc fmt args = redactedText libc false fmt args := by
  induction fmt using format_induction hcNext hcNext_length with
  | nil =>
    intro args _
    rw [hcFormat, redactedText]
  | literal byte rest plain ih =>
    intro args noAnnotation
    have rest_ := logHasAnnotation_suffix (List.suffix_cons byte rest) noAnnotation
    rw [hcFormat_literal plain, redactedText, if_pos plain, ih args rest_]
  | percent rest ih =>
    intro args noAnnotation
    have rest_ := logHasAnnotation_suffix (List.suffix_append [0x25, 0x25] rest) noAnnotation
    rw [hcFormat_percent, redactedText_percent, ih args rest_]
  | conversion rest conversion ih =>
    intro args noAnnotation
    have plain := plain_conversion noAnnotation
    have next : hcNext rest = (hcSpec rest).2.tail := by
      unfold hcNext
      rw [plain]
    have isSuffix : hcNext rest <:+ 0x25 :: rest := by
      rw [next]
      have tail : (hcSpec rest).2.tail <:+ (hcSpec rest).2 := List.tail_suffix _
      have scanned : (hcSpec rest).2 <:+ rest := ⟨_, hcSpec_split rest⟩
      exact (tail.trans scanned).trans (List.suffix_cons 0x25 rest)
    have visible : hides false .default (hcSpec rest).2.head? = false := by
      unfold hides
      rw [decide_eq_false_iff_not]
      rintro (isPrivate | ⟨_, _, isOn⟩)
      · cases isPrivate
      · cases isOn
    have behind_ := ih args.tail (logHasAnnotation_suffix isSuffix noAnnotation)
    rw [next] at behind_
    rw [hcFormat_conversion conversion, redactedText_conversion conversion, plain]
    dsimp only
    rw [visible, if_neg Bool.false_ne_true, behind_]

/-! ## Messages -/

/-- The conversions of a format are read as the runtime reads them. -/
def Readable (privacy : Bool) (fmt : List UInt8) : Prop :=
  privacy = true ∨ logHasAnnotation fmt = true →
    ∀ rest, Reaches fmt rest → Closed rest ∧ Agrees privacy rest

theorem logDispatch_text {fmt : List UInt8} (readable : Readable privacy fmt) (args : List Int) :
    logDispatch libc privacy fmt args = redactedText libc privacy fmt args := by
  unfold logDispatch
  split
  next rewrites =>
    rw [Bool.or_eq_true] at rewrites
    exact hcFormat_redacted fmt (fun rest reaches => (readable rewrites rest reaches).2) args
  next plain =>
    rw [Bool.or_eq_true, not_or, Bool.not_eq_true, Bool.not_eq_true] at plain
    rw [plain.1]
    exact hcFormat_plain_text fmt args plain.2

/-- The rewriter reads behind its format just where an annotation is open or too short, and stays
in its buffers; with conversions that both scans read alike, the hidden arguments are those that
do not come into the text. -/
theorem logDispatch_redacts (libc : Libc) (privacy : Bool) (fmt : List UInt8) :
    (∀ args, ((logRedactFormat privacy fmt args).overread = false ↔
        ∀ rest, Reaches fmt rest → Closed rest) ∧
      (logRedactFormat privacy fmt args).format.length + 1 ≤
        fmt.length * logRedacted.length + 1 ∧
      (logRedactFormat privacy fmt args).argv.length ≤ args.length) ∧
    (Readable privacy fmt →
      (∀ args, logDispatch libc privacy fmt args = redactedText libc privacy fmt args) ∧
      ∀ args args' : List Int,
        (∀ k : Nat, (hidden privacy fmt)[k]? ≠ some true → args[k]? = args'[k]?) →
          logDispatch libc privacy fmt args = logDispatch libc privacy fmt args') := by
  constructor
  · intro args
    have ⟨length, count⟩ := @logRedactFormat_length privacy fmt args
    exact ⟨logRedactFormat_overread fmt args, Nat.succ_le_succ length, count⟩
  · intro readable
    refine ⟨logDispatch_text readable, ?_⟩
    intro args args' same
    rw [logDispatch_text readable, logDispatch_text readable]
    exact redactedText_hidden fmt args args' same

/-- `%{private}04d %{public}-3s` -/
def annotatedFormat : List UInt8 :=
  0x25 :: privateText ++ [0x30, 0x34, 0x64, 0x20, 0x25] ++ publicText ++ [0x2D, 0x33, 0x73]

def echo : Libc := ⟨fun _ _ => [0x37], fun _ text => text, fun _ => [0x78]⟩

/-- The number is not in the text, the string is. -/
theorem logDispatch_redacts_annotated :
    logDispatch echo true annotatedFormat [7, 1] = redactedText echo true annotatedFormat [7, 1] ∧
      logDispatch echo true annotatedFormat [7, 1] =
        logDispatch echo true annotatedFormat [8, 1] := by
  have readable : Readable true annotatedFormat := by
    intro _ rest reaches
    have first : logNext annotatedFormat.tail =
        [0x20, 0x25] ++ publicText ++ [0x2D, 0x33, 0x73] := by decide +kernel
    have second : logNext (publicText ++ [0x2D, 0x33, 0x73]) = [] := by decide +kernel
    rcases (reaches_iff (by decide) rest).mp reaches with same | reaches
    · rw [same]
      exact ⟨fun _ => .inr (.inl (by decide)), by unfold Agrees Ordered; decide⟩
    change Reaches (logNext annotatedFormat.tail) rest at reaches
    rw [first] at reaches
    cases reaches with
    | literal _ _ _ _ reaches =>
      rcases (reaches_iff (by decide) rest).mp reaches with same | reaches
      · rw [same]
        exact ⟨fun _ => .inl (by decide), by unfold Agrees Ordered; decide⟩
      change Reaches (logNext (publicText ++ [0x2D, 0x33, 0x73])) rest at reaches
      rw [second] at reaches
      cases reaches
  have redacts := (logDispatch_redacts echo true annotatedFormat).2 readable
  refine ⟨redacts.1 [7, 1], redacts.2 [7, 1] [8, 1] ?_⟩
  intro k visible
  cases k with
  | zero => exact absurd (by decide +kernel) visible
  | succ k => rfl

/-- `%{abc` is read behind its end; in `%.-%s%d` the rewriter takes `%.-%` for one conversion, and
the secret of `%s` is printed. -/
theorem logRedactFormat_misreads :
    (logRedactFormat true [0x25, 0x7B, 0x61, 0x62, 0x63] []).overread = true ∧
      hidden true [0x25, 0x2E, 0x2D, 0x25, 0x73, 0x25, 0x64] = [false, true, false] ∧
      logDispatch ⟨fun _ _ => [], fun _ _ => [], fun a => [UInt8.ofNat a.toNat]⟩ true
          [0x25, 0x2E, 0x2D, 0x25, 0x73, 0x25, 0x64] [0, 1, 0] ≠
        logDispatch ⟨fun _ _ => [], fun _ _ => [], fun a => [UInt8.ofNat a.toNat]⟩ true
          [0x25, 0x2E, 0x2D, 0x25, 0x73, 0x25, 0x64] [0, 2, 0] := by
  decide +kernel

end Aholyc.Log
