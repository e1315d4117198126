import Mathlib.Computability.Language

/-!
# Scanners

A scanner reads a text from left to right: it goes on over the symbols it
recognises, or it gives up. `Scans` says which language a scanner recognises;
a scanner is greedy, so it is complete only where the text after the word
cannot be mistaken for more of it. The rules below follow the shapes scanners
are written in: one after the other, a loop, a test of the next symbol.
-/

namespace Aholyc.Lib.Scanner

open Computability

/-- How a scanner ends. `running` is a loop stopped by its fuel. -/
inductive Outcome (σ : Type) where
  | found (s : σ)
  | failed (s : σ)
  | running

namespace Outcome

variable {σ : Type}

def andThen : Outcome σ → (σ → Outcome σ) → Outcome σ
  | found s, next => next s
  | failed s, _ => failed s
  | running, _ => running

@[simp] theorem found_andThen (s : σ) (next : σ → Outcome σ) :
    (found s).andThen next = next s := rfl

@[simp] theorem failed_andThen (s : σ) (next : σ → Outcome σ) :
    (failed s).andThen next = failed s := rfl

@[simp] theorem running_andThen (next : σ → Outcome σ) :
    (running : Outcome σ).andThen next = running := rfl

theorem andThen_found {out : Outcome σ} {next : σ → Outcome σ} {s : σ}
    (ended : out.andThen next = found s) : ∃ mid, out = found mid ∧ next mid = found s := by
  cases out with
  | found mid => exact ⟨mid, rfl, ended⟩
  | failed mid => cases ended
  | running => cases ended

theorem andThen_ends {out : Outcome σ} {next : σ → Outcome σ} (first : out ≠ running)
    (rest : ∀ mid, out = found mid → next mid ≠ running) : out.andThen next ≠ running := by
  cases out with
  | found mid => exact rest mid rfl
  | failed mid => intro same; cases same
  | running => exact absurd rfl first

end Outcome

/-- A state that reads a text: what is left of it, and going on by some
symbols. -/
structure Cursor (σ α : Type) where
  left : σ → List α
  skip : Nat → σ → σ
  left_skip : ∀ n s, left (skip n s) = (left s).drop n
  skip_zero : ∀ s, skip 0 s = s
  skip_skip : ∀ m n s, skip n (skip m s) = skip (m + n) s

namespace Cursor

variable {σ α : Type} (c : Cursor σ α)

def Reads (s : σ) (word : List α) (s' : σ) : Prop :=
  word <+: c.left s ∧ s' = c.skip word.length s

variable {c}

theorem Reads.nil (s : σ) : c.Reads s [] s :=
  ⟨List.nil_prefix, (c.skip_zero s).symm⟩

theorem Reads.left {s s' : σ} {word : List α} (reads : c.Reads s word s') :
    c.left s = word ++ c.left s' := by
  obtain ⟨⟨rest, eq⟩, rfl⟩ := reads
  rw [c.left_skip, ← eq, List.drop_left]

theorem Reads.of_left {s : σ} {word rest : List α} (eq : c.left s = word ++ rest) :
    c.Reads s word (c.skip word.length s) :=
  ⟨⟨rest, eq.symm⟩, rfl⟩

theorem Reads.append {s mid s' : σ} {first second : List α}
    (one : c.Reads s first mid) (two : c.Reads mid second s') :
    c.Reads s (first ++ second) s' := by
  constructor
  · rw [one.left, List.prefix_append_right_inj]
    exact two.1
  · rw [two.2, one.2, c.skip_skip, List.length_append]

theorem Reads.length_le {s s' : σ} {word : List α} (reads : c.Reads s word s') :
    (c.left s').length + word.length = (c.left s).length := by
  rw [reads.left, List.length_append]
  omega

theorem left_of_skip {s : σ} {word rest : List α} (eq : c.left s = word ++ rest) :
    c.left (c.skip word.length s) = rest := by
  rw [c.left_skip, eq, List.drop_left]

end Cursor

section

variable {σ α : Type} (c : Cursor σ α)

/-- `scan` ends, recognises the words of `lang` only, and recognises every one
of them that is followed by a text satisfying `stop`. -/
structure Scans (scan : σ → Outcome σ) (lang : Language α) (stop : List α → Prop) : Prop where
  ends : ∀ s, scan s ≠ .running
  sound : ∀ s s', scan s = .found s' → ∃ word ∈ lang, c.Reads s word s'
  complete : ∀ s word rest, word ∈ lang → c.left s = word ++ rest → stop rest →
    scan s = .found (c.skip word.length s)

variable {c}

theorem Scans.mono {scan : σ → Outcome σ} {lang : Language α} {stop more : List α → Prop}
    (scans : Scans c scan lang stop) (imp : ∀ rest, more rest → stop rest) :
    Scans c scan lang more where
  ends := scans.ends
  sound := scans.sound
  complete s word rest inLang eq follow := scans.complete s word rest inLang eq (imp rest follow)

/-- Scanners in sequence. What follows the first word starts with the second,
so every second word has to stop the first scanner. -/
theorem Scans.andThen {one two : σ → Outcome σ} {first second : Language α}
    {stop more : List α → Prop} (scansOne : Scans c one first stop)
    (scansTwo : Scans c two second more)
    (joins : ∀ word ∈ second, ∀ rest, more rest → stop (word ++ rest)) :
    Scans c (fun s => (one s).andThen two) (first * second) more where
  ends s := Outcome.andThen_ends (scansOne.ends s) fun mid _ => scansTwo.ends mid
  sound := by
    intro s s' ended
    obtain ⟨mid, endedOne, endedTwo⟩ := Outcome.andThen_found ended
    obtain ⟨wordOne, inFirst, readsOne⟩ := scansOne.sound s mid endedOne
    obtain ⟨wordTwo, inSecond, readsTwo⟩ := scansTwo.sound mid s' endedTwo
    exact ⟨wordOne ++ wordTwo, Language.append_mem_mul inFirst inSecond, readsOne.append readsTwo⟩
  complete := by
    intro s word rest inLang eq follow
    obtain ⟨wordOne, inFirst, wordTwo, inSecond, rfl⟩ := Language.mem_mul.mp inLang
    rw [List.append_assoc] at eq
    have endedOne := scansOne.complete s wordOne _ inFirst eq (joins wordTwo inSecond rest follow)
    have endedTwo := scansTwo.complete (c.skip wordOne.length s) wordTwo rest inSecond
      (c.left_of_skip eq) follow
    rw [endedOne, Outcome.found_andThen, endedTwo, c.skip_skip, List.length_append]

def wordsOf (p : α → Bool) : Language α := {word | ∀ a ∈ word, p a = true}

def Stops (p : α → Bool) (text : List α) : Prop := ∀ a ∈ text.head?, p a = false

@[simp] theorem stops_nil (p : α → Bool) : Stops p [] := by
  intro a inNil
  cases inNil

@[simp] theorem stops_cons (p : α → Bool) (a : α) (rest : List α) :
    Stops p (a :: rest) ↔ p a = false := by
  simp [Stops]

theorem stops_dropWhile (p : α → Bool) (text : List α) : Stops p (text.dropWhile p) := by
  induction text with
  | nil => exact stops_nil p
  | cons a rest ih =>
    cases value : p a with
    | true => rwa [List.dropWhile_cons_of_pos value]
    | false =>
      rw [List.dropWhile_cons_of_neg (by simp [value])]
      exact (stops_cons p a rest).mpr value

def oneOf (p : α → Bool) : Language α := {word | ∃ a, p a = true ∧ word = [a]}

theorem cons_mem_mul {p : α → Bool} {lang : Language α} {a : α} {word : List α}
    (first : p a = true) (rest : word ∈ lang) : a :: word ∈ oneOf p * lang :=
  Language.mem_mul.mpr ⟨[a], ⟨a, first, rfl⟩, word, rest, rfl⟩

theorem mem_mul_cons {p : α → Bool} {lang : Language α} {word : List α}
    (inLang : word ∈ oneOf p * lang) : ∃ a rest, word = a :: rest ∧ p a = true ∧ rest ∈ lang := by
  obtain ⟨_, ⟨a, first, rfl⟩, rest, inRest, rfl⟩ := Language.mem_mul.mp inLang
  exact ⟨a, rest, rfl, first, inRest⟩

theorem takeWhile_mem (p : α → Bool) (text : List α) : text.takeWhile p ∈ wordsOf p :=
  fun a taken => List.all_eq_true.mp List.all_takeWhile a taken

theorem wordsOf_cons {p : α → Bool} {a : α} {word : List α} (holds : p a = true) :
    a :: word ∈ wordsOf p ↔ word ∈ wordsOf p := by
  have all : (∀ other ∈ a :: word, p other = true) ↔ p a = true ∧ ∀ other ∈ word, p other = true :=
    List.forall_mem_cons
  exact all.trans (and_iff_right holds)

theorem append_mem_kstar {lang : Language α} {word more : List α} (first : word ∈ lang)
    (rest : more ∈ KStar.kstar lang) : word ++ more ∈ KStar.kstar lang := by
  rw [← Language.one_add_self_mul_kstar_eq_kstar]
  exact Or.inr (Language.append_mem_mul first rest)

def optional (lang : Language α) : Language α := 1 + lang

/-- Every word of a language is made of symbols that satisfy `p`. -/
def AllOf (p : α → Bool) (lang : Language α) : Prop := ∀ word ∈ lang, ∀ a ∈ word, p a = true

theorem AllOf.mul {p : α → Bool} {one two : Language α} (first : AllOf p one)
    (second : AllOf p two) : AllOf p (one * two) := by
  rintro _ ⟨word, inOne, more, inTwo, rfl⟩ a inBoth
  cases List.mem_append.mp inBoth with
  | inl inWord => exact first word inOne a inWord
  | inr inMore => exact second more inTwo a inMore

theorem AllOf.optional {p : α → Bool} {lang : Language α} (all : AllOf p lang) :
    AllOf p (optional lang) := by
  intro word inLang
  cases inLang with
  | inl none =>
    rw [(Language.mem_one word).mp none]
    exact List.forall_mem_nil _
  | inr some => exact all word some

theorem AllOf.oneOf {p q : α → Bool} (all : ∀ a, q a = true → p a = true) :
    AllOf p (oneOf q) := by
  rintro _ ⟨a, isA, rfl⟩ b inWord
  rw [List.mem_singleton.mp inWord]
  exact all a isA

theorem AllOf.wordsOf {p q : α → Bool} (all : ∀ a, q a = true → p a = true) :
    AllOf p (wordsOf q) := fun _ inLang a inWord => all a (inLang a inWord)

variable (c)

def skipWhile (p : α → Bool) (s : σ) : σ := c.skip ((c.left s).takeWhile p).length s

variable {c}

theorem takeWhile_append_stop {p : α → Bool} {word rest : List α}
    (all : ∀ a ∈ word, p a = true) (stop : Stops p rest) :
    (word ++ rest).takeWhile p = word := by
  rw [List.takeWhile_append_of_pos all]
  cases rest with
  | nil => simp
  | cons a rest => simp [(stops_cons p a rest).mp stop]

theorem found_scans : Scans c .found 1 fun _ => True where
  ends s same := by cases same
  sound := by
    intro s s' ended
    cases ended
    exact ⟨[], Language.nil_mem_one, Cursor.Reads.nil s⟩
  complete := by
    intro s word rest inLang eq _
    rw [(Language.mem_one word).mp inLang, List.length_nil, c.skip_zero]

/-- `if (p(next)) { skip 1; after }`: the symbol and what comes after it, or
nothing. -/
theorem Scans.guarded {after : σ → Outcome σ} {lang : Language α} {stop : List α → Prop}
    (p : α → Bool) (scans : Scans c after lang stop) :
    Scans c (fun s => if (c.left s).head?.any p then after (c.skip 1 s) else .found s)
      (optional (oneOf p * lang)) fun rest => stop rest ∧ Stops p rest where
  ends := by
    intro s
    split
    · exact scans.ends (c.skip 1 s)
    · intro same
      cases same
  sound := by
    intro s s' ended
    split at ended
    next present =>
      cases text : c.left s with
      | nil => simp [text] at present
      | cons a rest =>
        obtain ⟨word, inLang, reads⟩ := scans.sound (c.skip 1 s) s' ended
        have head : c.Reads s [a] (c.skip 1 s) := ⟨⟨rest, text.symm⟩, rfl⟩
        have first : p a = true := by simpa [text] using present
        exact ⟨[a] ++ word, Or.inr (cons_mem_mul first inLang), head.append reads⟩
    next =>
      cases ended
      exact ⟨[], Or.inl Language.nil_mem_one, Cursor.Reads.nil s⟩
  complete := by
    intro s word rest inLang eq follow
    cases inLang with
    | inl empty =>
      rw [(Language.mem_one word).mp empty] at eq ⊢
      have absent : (c.left s).head?.any p = false := by
        rw [eq, List.nil_append]
        cases rest with
        | nil => rfl
        | cons a rest => exact (stops_cons p a rest).mp follow.2
      simp [absent, c.skip_zero]
    | inr guarded =>
      obtain ⟨a, more, rfl, present, inLang⟩ := mem_mul_cons guarded
      have next : (c.left s).head?.any p = true := by simp [eq, present]
      have tail : c.left (c.skip 1 s) = more ++ rest := by
        rw [c.left_skip, eq]
        rfl
      have ended := scans.complete (c.skip 1 s) more rest inLang tail follow.1
      simp only [next, if_true, ended, c.skip_skip, List.length_cons, Nat.add_comm]

/-- A loop: each round reads something (`some`), or the loop is left (`none`). -/
def repeatScan (round : σ → Option (Outcome σ)) : Nat → σ → Outcome σ
  | 0, _ => .running
  | fuel + 1, s =>
      match round s with
      | none => .found s
      | some out => out.andThen (repeatScan round fuel)

theorem repeatScan_leaves {round : σ → Option (Outcome σ)} {s : σ} (left : round s = none)
    (fuel : Nat) : repeatScan round (fuel + 1) s = .found s := by
  simp only [repeatScan, left]

theorem repeatScan_goes {round : σ → Option (Outcome σ)} {s s' : σ}
    (taken : round s = some (.found s')) (fuel : Nat) :
    repeatScan round (fuel + 1) s = repeatScan round fuel s' := by
  simp only [repeatScan, taken, Outcome.found_andThen]

variable (c)

/-- What one round of a loop over words of `lang` does; the loop is left just
at the texts that satisfy `stop`. -/
structure Rounds (round : σ → Option (Outcome σ)) (lang : Language α)
    (stop : List α → Prop) : Prop where
  nonempty : ∀ word ∈ lang, word ≠ []
  ends : ∀ s, round s ≠ some .running
  sound : ∀ s s', round s = some (.found s') → ∃ word ∈ lang, c.Reads s word s'
  complete : ∀ s word rest, word ∈ lang → c.left s = word ++ rest →
    round s = some (.found (c.skip word.length s))
  leaves : ∀ s, stop (c.left s) → round s = none

variable {c}

theorem repeatScan_sound {round : σ → Option (Outcome σ)} {lang : Language α}
    {stop : List α → Prop} (rounds : Rounds c round lang stop) (fuel : Nat) (s s' : σ)
    (ended : repeatScan round fuel s = .found s') :
    (∃ word ∈ KStar.kstar lang, c.Reads s word s') ∧ round s' = none := by
  induction fuel generalizing s with
  | zero => cases ended
  | succ fuel ih =>
    simp only [repeatScan] at ended
    split at ended
    next left =>
      cases ended
      exact ⟨⟨[], Language.nil_mem_kstar lang, Cursor.Reads.nil s'⟩, left⟩
    next out taken =>
      obtain ⟨mid, rfl, rest⟩ := Outcome.andThen_found ended
      obtain ⟨word, inLang, reads⟩ := rounds.sound s mid taken
      obtain ⟨⟨more, inStar, readsMore⟩, left⟩ := ih mid rest
      exact ⟨⟨word ++ more, append_mem_kstar inLang inStar, reads.append readsMore⟩, left⟩

theorem repeatScan_ends {round : σ → Option (Outcome σ)} (ends : ∀ s, round s ≠ some .running)
    (shrinks : ∀ s s', round s = some (.found s') → (c.left s').length < (c.left s).length)
    (fuel : Nat) (s : σ) (enough : (c.left s).length < fuel) :
    repeatScan round fuel s ≠ .running := by
  induction fuel generalizing s with
  | zero => omega
  | succ fuel ih =>
    simp only [repeatScan]
    split
    next => intro same; cases same
    next out taken =>
      apply Outcome.andThen_ends
      · intro same
        exact ends s (by rw [taken, same])
      · intro mid found
        have shorter := shrinks s mid (by rw [taken, found])
        exact ih mid (by omega)

theorem Rounds.shrinks {round : σ → Option (Outcome σ)} {lang : Language α}
    {stop : List α → Prop} (rounds : Rounds c round lang stop) (s s' : σ)
    (taken : round s = some (.found s')) : (c.left s').length < (c.left s).length := by
  obtain ⟨word, inLang, reads⟩ := rounds.sound s s' taken
  have shorter := reads.length_le
  have positive := List.length_pos_of_ne_nil (rounds.nonempty word inLang)
  omega

theorem repeatScan_complete {round : σ → Option (Outcome σ)} {lang : Language α}
    {stop : List α → Prop} (rounds : Rounds c round lang stop) (words : List (List α))
    (all : ∀ word ∈ words, word ∈ lang) (rest : List α) (follow : stop rest) :
    ∀ fuel s, words.length < fuel → c.left s = words.flatten ++ rest →
      repeatScan round fuel s = .found (c.skip words.flatten.length s) := by
  induction words with
  | nil =>
    intro fuel s enough eq
    obtain ⟨fuel, rfl⟩ := Nat.exists_eq_succ_of_ne_zero (Nat.ne_of_gt enough)
    rw [List.flatten_nil, List.nil_append] at eq
    have left := rounds.leaves s (by rw [eq]; exact follow)
    simp [repeatScan, left, c.skip_zero]
  | cons word words ih =>
    intro fuel s enough eq
    obtain ⟨fuel, rfl⟩ : ∃ less, fuel = less + 1 := ⟨fuel - 1, by
      have := Nat.zero_lt_of_lt enough
      omega⟩
    rw [List.flatten_cons, List.append_assoc] at eq
    have taken := rounds.complete s word _ (all word (by simp)) eq
    have more := ih (fun w inWords => all w (by simp [inWords])) fuel
      (c.skip word.length s) (by simpa using enough) (c.left_of_skip eq)
    simp only [repeatScan, taken, Outcome.found_andThen, more, c.skip_skip,
      List.flatten_cons, List.length_append]

theorem length_le_flatten {words : List (List α)} (nonempty : ∀ word ∈ words, word ≠ []) :
    words.length ≤ words.flatten.length := by
  induction words with
  | nil => simp
  | cons word words ih =>
    have positive := List.length_pos_of_ne_nil (nonempty word (by simp))
    have more := ih fun w inWords => nonempty w (by simp [inWords])
    simp only [List.length_cons, List.flatten_cons, List.length_append]
    omega

/-- A loop over words recognises the words repeated. The fuel is what is left
of the text, since every round reads at least one symbol. -/
theorem repeatScan_scans {round : σ → Option (Outcome σ)} {lang : Language α}
    {stop : List α → Prop} (rounds : Rounds c round lang stop) :
    Scans c (fun s => repeatScan round ((c.left s).length + 1) s) (KStar.kstar lang) stop where
  ends s := repeatScan_ends rounds.ends rounds.shrinks _ s (Nat.lt_succ_self _)
  sound s s' ended := (repeatScan_sound rounds _ s s' ended).1
  complete := by
    intro s word rest inLang eq follow
    obtain ⟨words, rfl, all⟩ := Language.mem_kstar.mp inLang
    have short := length_le_flatten fun w inWords => rounds.nonempty w (all w inWords)
    have long : words.flatten.length ≤ (c.left s).length := by
      rw [eq, List.length_append]
      omega
    exact repeatScan_complete rounds words all rest follow _ s (by omega) eq

end

end Aholyc.Lib.Scanner
