import Aholyc.Regex.Arrivals

/-!
# What the loops find

A full match succeeds just when the program has a match of the whole text. A
search returns a match whose start is the least among the matches that end
first, and the longest of that start if no match begins earlier.
-/

namespace Aholyc.Regex

open Aholyc.Lib.Closure Aholyc.Text

theorem encode_drop (before behind : List Char) :
    (encode (before ++ behind)).drop (encode before).length = encode behind := by
  rw [encode_append, List.drop_left]

theorem encode_lt (before behind : List Char) (ch : Char) :
    (encode before).length < (encode (before ++ ch :: behind)).length := by
  have positive := List.length_pos_of_ne_nil (String.utf8EncodeChar_ne_nil (c := ch))
  rw [encode_append, encode_cons, List.length_append, List.length_append]
  omega

theorem encode_snoc (before : List Char) (ch : Char) :
    (encode (before ++ [ch])).length =
      (encode before).length + (String.utf8EncodeChar ch).length := by
  simp

theorem snoc_cons (before behind : List Char) (ch : Char) :
    before ++ ch :: behind = before ++ [ch] ++ behind := by
  rw [List.append_assoc, List.singleton_append]

variable {program : CProgram} {before behind : List Char}

theorem Spans.here {start : Nat}
    (spans : Spans program (before ++ behind) start (encode before).length) :
    ∃ x, Arrives program before behind start x ∧ (program.fetch x).op = .matched := by
  obtain ⟨before', behind', x, split, size, arrives, op⟩ := spans
  have same := encode_prefix_inj split.symm size
  subst same
  have rest := List.append_cancel_left split
  subst rest
  exact ⟨x, arrives, op⟩

theorem Spans.of_thread {start : Nat} {x : program.State}
    (arrives : Arrives program before behind start x) (op : (program.fetch x).op = .matched) :
    Spans program (before ++ behind) start (encode before).length :=
  ⟨before, behind, x, rfl, rfl, arrives, op⟩

theorem any_isMatch {threads : List (Thread program)} :
    threads.any (isMatch program) = true ↔
      ∃ x origin, (x, origin) ∈ threads ∧ (program.fetch x).op = .matched := by
  simp [isMatch]

/-! ## The loop of a full match -/

theorem matching_here {threads : List (Thread program)}
    (covers : Covers program (· = 0) before behind threads) (rune : Nat) :
    ((matching program rune (fun _ => true) threads).map fun thread => (thread.1, 0)) =
      matching program rune (fun _ => true) threads := by
  rw [← List.map_id (matching _ _ _ _), List.map_map]
  apply List.map_congr_left
  rintro ⟨next, origin⟩ inMatching
  obtain ⟨x, inThreads, _⟩ := mem_matching.mp inMatching
  rw [(covers.sound x origin inThreads).2.1]
  rfl

theorem runLoop_spans (fuel : Nat) (marks : CMarks) (before behind : List Char)
    (accepted : Option Nat) (threads : List (Thread program)) (enough : behind.length < fuel)
    (ready : Ready program marks) (covers : Covers program (· = 0) before behind threads)
    (early : accepted ≠ some (encode (before ++ behind)).length) :
    ∃ marks' accepted', runLoop program (encode (before ++ behind)) 0 fuel marks
        (encode before).length accepted threads = some (marks', accepted') ∧
      Ready program marks' ∧ (accepted' = some (encode (before ++ behind)).length ↔
        Spans program (before ++ behind) 0 (encode (before ++ behind)).length) := by
  induction behind generalizing fuel marks before accepted threads with
  | nil =>
    obtain ⟨fuel, rfl⟩ := Nat.exists_eq_add_of_lt enough
    rw [List.append_nil] at early ⊢
    simp only [runLoop]
    rw [if_pos (by simp)]
    refine ⟨_, _, rfl, ready, ?_⟩
    have here : Spans program before 0 (encode before).length ↔
        threads.any (isMatch program) = true := by
      rw [any_isMatch]
      constructor
      · intro spans
        have whole : Spans program (before ++ []) 0 (encode before).length := by
          rwa [List.append_nil]
        obtain ⟨x, arrives, op⟩ := whole.here
        obtain ⟨origin, _, inThreads⟩ :=
          covers.least x 0 rfl arrives (isMatch_leaf op before [])
        exact ⟨x, origin, inThreads, op⟩
      · rintro ⟨x, origin, inThreads, op⟩
        obtain ⟨_, rfl, arrives⟩ := covers.sound x origin inThreads
        have spans := Spans.of_thread arrives op
        rwa [List.append_nil] at spans
    rw [here]
    split
    next found => simp [found]
    next missed => simp [missed, early]
  | cons ch behind ih =>
    obtain ⟨fuel, rfl⟩ : ∃ more, fuel = more + 1 := Nat.exists_eq_succ_of_ne_zero (by omega)
    have lt := encode_lt before behind ch
    simp only [runLoop]
    split
    next stop =>
      have empty : threads = [] := by
        simp only [ge_iff_le, Bool.or_eq_true, decide_eq_true_eq, List.isEmpty_iff] at stop
        rcases stop with past | empty
        · omega
        · exact empty
      subst empty
      refine ⟨_, _, rfl, ready, ?_⟩
      simp only [List.any_nil, Bool.false_eq_true, if_false]
      refine ⟨fun same => absurd same early, ?_⟩
      intro spans
      have whole : Spans program ((before ++ ch :: behind) ++ []) 0
          (encode (before ++ ch :: behind)).length := by
        rwa [List.append_nil]
      obtain ⟨x, arrives, _⟩ := whole.here
      obtain ⟨y, _, old, leaf, _⟩ :=
        arrives.through (Nat.zero_le _) (List.cons_ne_nil ch behind)
      rw [List.append_nil] at old leaf
      obtain ⟨_, _, inNil⟩ := covers.least y 0 rfl old leaf
      cases inNil
    next =>
      rw [encode_drop, utf8DecodeRune_encode]
      simp only
      rw [matching_here covers, ← encode_snoc, snoc_cons before behind ch]
      obtain ⟨found, added, readyAfter, listed⟩ := regexAddStates_listed ready (before ++ [ch])
        behind (matching program ch.val.toNat (fun _ => true) threads)
        (matching_sorted covers.sorted)
      rw [added]
      have coversAfter : Covers program (· = 0) (before ++ [ch]) behind found.2 := by
        rw [← List.append_nil (matching _ _ _ _)] at listed
        apply covers.step _ listed
        intro s origin
        constructor
        · intro inNil
          cases inNil
        · rintro ⟨_, rfl, isHere⟩
          rw [encode_snoc] at isHere
          have positive := List.length_pos_of_ne_nil (String.utf8EncodeChar_ne_nil (c := ch))
          omega
      simp only [Option.bind_eq_bind, Option.bind_some]
      rw [snoc_cons before behind ch] at early lt
      apply ih fuel _ (before ++ [ch]) _ found.2 (by simpa using enough) readyAfter coversAfter
      split
      · intro same
        have atEnd := Option.some.inj same
        omega
      · exact early

theorem regexFullMatchN_spans (regex : CRegex) (text : List Char) (compiled : regex.error = .ok)
    (ready : Ready regex.program regex.marks) :
    ∃ marks accepted, regexFullMatchN regex (encode text) =
        some ({ regex with marks := marks }, accepted) ∧ Ready regex.program marks ∧
      (accepted = true ↔ Spans regex.program text 0 (encode text).length) := by
  simp only [regexFullMatchN, compiled, ne_eq, not_true_eq_false, if_false, regexRunAt]
  obtain ⟨found, added, readyAfter, listed⟩ := regexAddStates_listed ready [] text
    ((regex.program.state regex.program.start).toList.map (·, 0)) (by
      cases regex.program.state regex.program.start <;> simp)
  simp only [encode_nil, List.length_nil, List.nil_append] at added
  rw [added]
  have covers : Covers regex.program (· = 0) [] text found.2 := by
    apply Covers.begin
    · rfl
    · intro origin isZero _
      exact isZero
    · exact listed
  obtain ⟨marks, accepted, ended, readyLast, whole⟩ := runLoop_spans ((encode text).length + 1) _ []
    text none found.2 (Nat.lt_succ_of_le (encode_length_le text)) readyAfter covers (by simp)
  simp only [encode_nil, List.length_nil, List.nil_append] at ended whole
  simp only [Option.bind_eq_bind, Option.bind_some, ended]
  refine ⟨marks, _, rfl, readyLast, ?_⟩
  rw [decide_eq_true_eq, whole]

end Aholyc.Regex
