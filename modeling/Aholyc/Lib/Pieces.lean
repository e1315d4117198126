import Mathlib.Data.List.Infix
import Mathlib.Tactic.Common

/-!
# Texts of pieces

A text is a sequence of pieces. Each letter behind the first one of a piece is known to be
such a letter, so the places between two pieces are found from any place: backwards by
the next first letter, forwards by the next one or the end. No piece begins with another.
-/

namespace Aholyc.Lib

variable {α : Type}

/-- The pieces of a code whose first letters are known. -/
structure Pieces (α : Type) where
  isPiece : List α → Prop
  /-- Behind the first letter of a piece. -/
  later : α → Bool
  first : ∀ piece, isPiece piece →
    ∃ a rest, piece = a :: rest ∧ later a = false ∧ ∀ b ∈ rest, later b = true
  whole : ∀ piece more, isPiece piece → isPiece (piece ++ more) → more = []

variable (P : Pieces α)

namespace Pieces

inductive Text : List α → Prop
  | nil : Text []
  | cons {piece rest : List α} (isPiece : P.isPiece piece) (isRest : Text rest) :
      Text (piece ++ rest)

structure Boundary (text : List α) (place : Nat) : Prop where
  le : place ≤ text.length
  front : P.Text (text.take place)
  back : P.Text (text.drop place)

/-- `while (place > 0 && later text[place]) place--;` -/
def backTo (text : List α) : Nat → Nat
  | 0 => 0
  | place + 1 => if text[place + 1]?.any P.later then backTo text place else place + 1

variable {P} {text front back : List α} {place : Nat}

theorem Text.piece {piece : List α} (isPiece : P.isPiece piece) : P.Text piece := by
  have isText : P.Text (piece ++ []) := .cons isPiece .nil
  rwa [List.append_nil] at isText

theorem Text.append (isFront : P.Text front) (isBack : P.Text back) : P.Text (front ++ back) := by
  induction isFront with
  | nil => exact isBack
  | cons isPiece _ ih =>
    rw [List.append_assoc]
    exact .cons isPiece ih

variable {a : α}

theorem Text.head_first {rest : List α} (isText : P.Text (a :: rest)) : P.later a = false := by
  generalize isSame : a :: rest = word at isText
  cases isText with
  | nil => cases isSame
  | @cons piece rest' isPiece _ =>
    obtain ⟨b, more, isWord, notLater, _⟩ := P.first piece isPiece
    rw [isWord, List.cons_append, List.cons.injEq] at isSame
    rw [isSame.1]
    exact notLater

/-- A first letter starts a text, and ends one in front of it. -/
theorem Text.split (isText : P.Text (front ++ back))
    (starts : ∀ a ∈ back.head?, P.later a = false) : P.Text front ∧ P.Text back := by
  generalize isWhole : front ++ back = whole at isText
  induction isText generalizing front with
  | nil =>
    rw [List.append_eq_nil_iff] at isWhole
    rw [isWhole.1, isWhole.2]
    exact ⟨.nil, .nil⟩
  | @cons piece rest isPiece isRest ih =>
    cases front with
    | nil =>
      rw [List.nil_append] at isWhole
      rw [isWhole]
      exact ⟨.nil, .cons isPiece isRest⟩
    | cons x front =>
      rw [List.append_eq_append_iff] at isWhole
      rcases isWhole with ⟨middle, isPiece', isBack⟩ | ⟨middle, isFront, isRest'⟩
      · -- the rest of the piece has no first letter
        cases middle with
        | nil =>
          rw [List.append_nil] at isPiece'
          rw [← isPiece', isBack, List.nil_append]
          exact ⟨.piece isPiece, isRest⟩
        | cons b middle =>
          obtain ⟨a, letters, isLetters, _, others⟩ := P.first piece isPiece
          rw [isPiece', List.cons_append, List.cons.injEq] at isLetters
          have inRest : b ∈ letters := by
            rw [← isLetters.2]
            exact List.mem_append_right _ List.mem_cons_self
          have notLater := starts b (by rw [isBack]; exact rfl)
          rw [others b inRest] at notLater
          cases notLater
      · have both := ih isRest'.symm
        rw [isFront]
        exact ⟨.cons isPiece both.1, both.2⟩

theorem Text.boundary_iff (isText : P.Text text) : P.Boundary text place ↔
    place ≤ text.length ∧ ∀ a ∈ text[place]?, P.later a = false := by
  constructor
  · intro boundary
    refine ⟨boundary.le, ?_⟩
    intro a isLetter
    have isBack := boundary.back
    have inside : place < text.length := (List.getElem?_eq_some_iff.mp isLetter).1
    rw [List.drop_eq_getElem_cons inside] at isBack
    have first := isBack.head_first
    rw [Option.mem_def, List.getElem?_eq_getElem inside, Option.some.injEq] at isLetter
    rwa [isLetter] at first
  · rintro ⟨le, first⟩
    rw [← List.take_append_drop place text] at isText
    have both := isText.split (by rw [List.head?_drop]; exact first)
    exact ⟨le, both.1, both.2⟩

theorem boundary_length (isText : P.Text text) : P.Boundary text text.length :=
  ⟨Nat.le_refl _, by rwa [List.take_length], by rw [List.drop_length]; exact .nil⟩

theorem boundary_zero (isText : P.Text text) : P.Boundary text 0 :=
  ⟨Nat.zero_le _, .nil, isText⟩

theorem boundary_append (isFront : P.Text front) (isBack : P.Text back) :
    P.Boundary (front ++ back) front.length := by
  refine ⟨by rw [List.length_append]; omega, ?_, ?_⟩
  · rwa [List.take_left]
  · rwa [List.drop_left]

theorem Text.rest (isFront : P.Text front) (isText : P.Text (front ++ back)) : P.Text back := by
  induction isFront with
  | nil => exact isText
  | @cons piece rest isPiece _ ih =>
    apply ih
    rw [List.append_assoc] at isText
    generalize isSame : piece ++ (rest ++ back) = word at isText
    cases isText with
    | nil =>
      rw [List.append_eq_nil_iff] at isSame
      rw [isSame.2]
      exact .nil
    | @cons piece' rest' isPiece' isRest' =>
      rw [List.append_eq_append_iff] at isSame
      rcases isSame with ⟨more, isLonger, isRest⟩ | ⟨more, isShorter, isRest⟩
      · rw [isLonger] at isPiece'
        rw [P.whole piece more isPiece isPiece', List.nil_append] at isRest
        rwa [isRest]
      · rw [isShorter] at isPiece
        rw [P.whole piece' more isPiece' isPiece, List.nil_append] at isRest
        rwa [← isRest]

theorem Text.first_piece {rest : List α} (isText : P.Text (a :: rest)) (alone : P.isPiece [a]) :
    P.Text rest := by
  rw [← List.singleton_append] at isText
  exact (Text.piece alone).rest isText

theorem not_later_of_piece (alone : P.isPiece [a]) : P.later a = false := by
  obtain ⟨b, rest, isWord, notLater, _⟩ := P.first _ alone
  rw [List.cons.injEq] at isWord
  rwa [isWord.1]

theorem Text.alone_boundary (isText : P.Text text) (isLetter : text[place]? = some a)
    (alone : P.isPiece [a]) : P.Boundary text place ∧ P.Boundary text (place + 1) := by
  have inside : place < text.length := (List.getElem?_eq_some_iff.mp isLetter).1
  have isBoundary : P.Boundary text place := by
    rw [isText.boundary_iff]
    refine ⟨by omega, ?_⟩
    intro b isLetter'
    rw [isLetter] at isLetter'
    cases isLetter'
    exact not_later_of_piece alone
  refine ⟨isBoundary, by omega, ?_, ?_⟩
  · rw [List.take_add_one, isLetter]
    exact isBoundary.front.append (.piece alone)
  · have isBack := isBoundary.back
    rw [List.getElem?_eq_getElem inside, Option.some.injEq] at isLetter
    rw [List.drop_eq_getElem_cons inside, isLetter] at isBack
    exact isBack.first_piece alone

/-! ## Searching for a boundary -/

theorem backTo_le (text : List α) (place : Nat) : P.backTo text place ≤ place := by
  induction place with
  | zero => exact Nat.le_refl 0
  | succ place ih =>
    rw [backTo]
    split
    · omega
    · exact Nat.le_refl _

theorem Text.backTo_boundary (isText : P.Text text) (le : place ≤ text.length) :
    P.Boundary text (P.backTo text place) := by
  induction place with
  | zero => exact boundary_zero isText
  | succ place ih =>
    rw [backTo]
    split
    · exact ih (by omega)
    · next notLater =>
        rw [isText.boundary_iff]
        refine ⟨le, ?_⟩
        intro a isLetter
        rw [Option.mem_def] at isLetter
        rw [isLetter, Option.any_some] at notLater
        exact Bool.eq_false_iff.mpr notLater

theorem Text.le_backTo (isText : P.Text text) {other : Nat} (boundary : P.Boundary text other)
    (le : other ≤ place) : other ≤ P.backTo text place := by
  induction place with
  | zero => exact le
  | succ place ih =>
    rw [backTo]
    split
    · next isLater =>
        apply ih
        by_contra above
        have isPlace : other = place + 1 := by omega
        have first := (isText.boundary_iff.mp boundary).2
        rw [isPlace] at first
        rw [Option.any_eq_true] at isLater
        obtain ⟨a, isLetter, later⟩ := isLater
        rw [first a isLetter] at later
        cases later
    · exact le

theorem backTo_piece {piece : List α} (isFront : P.Text front) (isPiece : P.isPiece piece)
    (isBack : P.Text back) :
    P.backTo (front ++ (piece ++ back)) ((front ++ piece).length - 1) = front.length := by
  have isText : P.Text (front ++ (piece ++ back)) := isFront.append (.cons isPiece isBack)
  obtain ⟨a, rest, isWord, _, later⟩ := P.first piece isPiece
  have size : piece.length = rest.length + 1 := by
    rw [isWord, List.length_cons]
  have inside : (front ++ piece).length - 1 ≤ (front ++ (piece ++ back)).length := by
    rw [List.length_append, List.length_append, List.length_append]
    omega
  have boundary := isText.backTo_boundary inside
  have below := P.backTo_le (front ++ (piece ++ back)) ((front ++ piece).length - 1)
  have start_le : front.length ≤ (front ++ piece).length - 1 := by
    rw [List.length_append]
    omega
  have above := isText.le_backTo (boundary_append isFront (.cons isPiece isBack)) start_le
  generalize P.backTo (front ++ (piece ++ back)) ((front ++ piece).length - 1) = place
    at boundary below above ⊢
  rw [List.length_append] at below
  by_contra other
  -- the other letters of the piece are no first ones
  have isLetter : (front ++ (piece ++ back))[place]? = rest[place - front.length - 1]? := by
    rw [List.getElem?_append_right above, List.getElem?_append_left (by omega), isWord,
      List.getElem?_cons, if_neg (by omega)]
  have some_ : place - front.length - 1 < rest.length := by omega
  rw [List.getElem?_eq_getElem some_] at isLetter
  have first := (isText.boundary_iff.mp boundary).2 _ isLetter
  rw [later _ (List.getElem_mem some_)] at first
  cases first

end Pieces

end Aholyc.Lib
