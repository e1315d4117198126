import Mathlib.Data.Vector.Basic
import Mathlib.Tactic.Common
import Aholyc.Lib.Brackets
import Aholyc.Htk.Terminal

/-!
# The clip rectangle (lib/htk/core.hc, lib/htk/box.hc)

`HtkClipPush` saves the clip in one of eight slots and does nothing when they are full;
`HtkClipPop` then leaves the clip as it is. So a section that is entered with all slots
in use is not undone. In a section only `HtkClipAll` can widen the clip, which no control
calls as it draws, hence nothing is drawn outside of a viewport.
-/

namespace Aholyc.Htk.Clip

open Aholyc.Lib

/-- The sides of the clip; `x2` and `y2` are the first places outside. -/
structure HtkClip where
  x : Int
  y : Int
  x2 : Int
  y2 : Int
  deriving DecidableEq, Repr

abbrev Cell := Int × Int

def htkClipDepth : Nat := 8

/-- `cells` are the cells that have been drawn, the last one first. -/
structure HtkClips where
  clip : HtkClip
  stack : Vector HtkClip htkClipDepth
  sp : Int
  cells : List Cell

/-! ## The source -/

def htkClipSet (x y w h : Int) (clip : HtkClip) : HtkClip where
  x := if x > clip.x then x else clip.x
  y := if y > clip.y then y else clip.y
  x2 := if i64 (x + w) < clip.x2 then i64 (x + w) else clip.x2
  y2 := if i64 (y + h) < clip.y2 then i64 (y + h) else clip.y2

def htkClipAll (termWidth termHeight : Int) : HtkClip := ⟨0, 0, termWidth, termHeight⟩

def htkClipPush (s : HtkClips) : Option HtkClips :=
  if s.sp + 1 > htkClipDepth then some { s with sp := s.sp + 1 }
  else if inside : 0 ≤ s.sp ∧ s.sp.toNat < htkClipDepth then
    some { s with sp := s.sp + 1, stack := s.stack.set s.sp.toNat s.clip inside.2 }
  else none

def htkClipPop (s : HtkClips) : Option HtkClips :=
  if s.sp - 1 ≥ htkClipDepth then some { s with sp := s.sp - 1 }
  else if inside : 0 ≤ s.sp - 1 ∧ (s.sp - 1).toNat < htkClipDepth then
    some { s with sp := s.sp - 1, clip := s.stack.get ⟨(s.sp - 1).toNat, inside.2⟩ }
  else none

def htkChr (x y : Int) (s : HtkClips) : HtkClips :=
  if x ≥ s.clip.x ∧ y ≥ s.clip.y ∧ x < s.clip.x2 ∧ y < s.clip.y2 then
    { s with cells := (x, y) :: s.cells }
  else s

/-- `HtkClipAll` reads the size of the screen, which may have changed since the last call. -/
inductive ClipOp where
  | set (x y w h : Int)
  | all (termWidth termHeight : Int)
  | push
  | pop
  | chr (x y : Int)
  deriving DecidableEq, Repr

def clipStep (s : HtkClips) : ClipOp → Option HtkClips
  | .set x y w h => some { s with clip := htkClipSet x y w h s.clip }
  | .all termWidth termHeight => some { s with clip := htkClipAll termWidth termHeight }
  | .push => htkClipPush s
  | .pop => htkClipPop s
  | .chr x y => some (htkChr x y s)

def clipRun (s : HtkClips) (ops : List ClipOp) : Option HtkClips := ops.foldlM clipStep s

/-- A control, with the cells that its own draw function hands to `HtkChr`: a box, a grid, a split
or a control without children, a viewport with its scrollbar, and a canvas with what its callback
draws, if it has one. -/
inductive HtkCtl where
  | plain (hidden : Bool) (paint : List Cell) (kids : List HtkCtl)
  | scroll (hidden : Bool) (x y w h : Int) (kids : List HtkCtl) (bar : List Cell)
  | canvas (hidden : Bool) (x y w h : Int) (fill : List Cell) (paint : Option (List Cell))

def chrs (cells : List Cell) : List ClipOp := cells.map fun cell => .chr cell.1 cell.2

def htkCanvasDraw (x y w h : Int) (fill : List Cell) (paint : Option (List Cell)) : List ClipOp :=
  chrs fill ++
    match paint with
    | none => []
    | some paint => .push :: (.set x y w h :: chrs paint ++ [.pop])

mutual

def htkDrawCtl : HtkCtl → List ClipOp
  | .plain hidden paint kids => if hidden then [] else chrs paint ++ htkKidsDraw kids
  | .scroll _ _ _ _ _ [] _ => []
  | .scroll hidden x y w h (k :: _) bar =>
    if hidden then []
    else .push :: (.set x y (i64 (w - 1)) h :: htkDrawCtl k ++ .pop :: chrs bar)
  | .canvas hidden x y w h fill paint =>
    if hidden then [] else htkCanvasDraw x y w h fill paint

def htkKidsDraw : List HtkCtl → List ClipOp
  | [] => []
  | k :: kids => htkDrawCtl k ++ htkKidsDraw kids

end

/-! ## What it is for -/

structure Within (clip other : HtkClip) : Prop where
  x : other.x ≤ clip.x
  y : other.y ≤ clip.y
  x2 : clip.x2 ≤ other.x2
  y2 : clip.y2 ≤ other.y2

def Inside (clip : HtkClip) (cell : Cell) : Prop :=
  clip.x ≤ cell.1 ∧ clip.y ≤ cell.2 ∧ cell.1 < clip.x2 ∧ cell.2 < clip.y2

/-- From each place between the calls of a section, nested sections apart, the clip is never
outside of what it is there. -/
def Shrinks (s : HtkClips) (ops : List ClipOp) : Prop :=
  ∀ front middle back s₁ s₂, ops = front ++ (middle ++ back) →
    Balanced ClipOp.push .pop front → Balanced ClipOp.push .pop (middle ++ back) →
      clipRun s front = some s₁ → clipRun s₁ middle = some s₂ → Within s₂.clip s₁.clip

/-- What the calls of a section do: the slots are enough, the pop gives the clip at the push back,
and between them the clip only shrinks. -/
structure Nests (s : HtkClips) (ops : List ClipOp) : Prop where
  runs : ∃ s', clipRun s ops = some s'
  restores : ∀ before inner after s₁ s₂, ops = before ++ .push :: (inner ++ .pop :: after) →
    Balanced ClipOp.push .pop inner → clipRun s before = some s₁ →
      clipRun s₁ (.push :: (inner ++ [.pop])) = some s₂ → s₂.clip = s₁.clip
  shrinks : ∀ before inner after s₁ pushed, ops = before ++ .push :: (inner ++ .pop :: after) →
    Balanced ClipOp.push .pop inner → clipRun s before = some s₁ →
      htkClipPush s₁ = some pushed → Shrinks pushed inner

structure Rect where
  x : Int
  y : Int
  w : Int
  h : Int

def narrowed (clip : HtkClip) (rects : List Rect) : HtkClip :=
  rects.foldl (fun clip rect => htkClipSet rect.x rect.y rect.w rect.h clip) clip

/-- `sub` is drawn as a part of the control, after these calls and in these viewports. -/
inductive Occurs : HtkCtl → List ClipOp → List Rect → HtkCtl → Prop
  | here (c : HtkCtl) : Occurs c [] [] c
  | kid {paint : List Cell} {front back : List HtkCtl} {k sub : HtkCtl} {before : List ClipOp}
      {rects : List Rect} (isKid : Occurs k before rects sub) :
      Occurs (.plain false paint (front ++ k :: back)) (chrs paint ++ htkKidsDraw front ++ before)
        rects sub
  | scrolled {x y w h : Int} {back : List HtkCtl} {bar : List Cell} {k sub : HtkCtl}
      {before : List ClipOp} {rects : List Rect} (isKid : Occurs k before rects sub) :
      Occurs (.scroll false x y w h (k :: back) bar) (.push :: .set x y (i64 (w - 1)) h :: before)
        (⟨x, y, i64 (w - 1), h⟩ :: rects) sub

/-- Each part of the control is drawn with the clip of its container. -/
def DrawnInPlace (s : HtkClips) (c : HtkCtl) : Prop :=
  ∀ before rects sub s₁, Occurs c before rects sub → clipRun s before = some s₁ →
    s₁.clip = narrowed s.clip rects

/-- Each part of the control changes only cells inside of every viewport that it is in. -/
def StaysInside (s : HtkClips) (c : HtkCtl) : Prop :=
  ∀ before rects sub s₁ s₂, Occurs c before rects sub → clipRun s before = some s₁ →
    clipRun s₁ (htkDrawCtl sub) = some s₂ → ∃ new, s₂.cells = new ++ s₁.cells ∧
      ∀ cell ∈ new, ∀ rect ∈ rects, rect.x ≤ cell.1 ∧ rect.y ≤ cell.2 ∧
        cell.1 < i64 (rect.x + rect.w) ∧ cell.2 < i64 (rect.y + rect.h)

/-- While more sections are open than there are slots, the call leaves the clip. -/
def Kept (s : HtkClips) : ClipOp → Prop
  | .set x y w h => htkClipDepth < s.sp →
    x ≤ s.clip.x ∧ y ≤ s.clip.y ∧ s.clip.x2 ≤ i64 (x + w) ∧ s.clip.y2 ≤ i64 (y + h)
  | .all termWidth termHeight => htkClipDepth < s.sp →
    s.clip = htkClipAll termWidth termHeight
  | _ => True

/-- The screen lies inside of the clip in force. -/
def Narrows (s : HtkClips) : ClipOp → Prop
  | .all termWidth termHeight => Within (htkClipAll termWidth termHeight) s.clip
  | _ => True

/-- No call changes the clip while more sections are open than there are slots, and none widens it
to the screen while any is open. -/
def Quiet (s : HtkClips) (op : ClipOp) : Prop := Kept s op ∧ (0 < s.sp → Narrows s op)

/-- Each call meets the condition in the state in which it is made. -/
def Along (condition : HtkClips → ClipOp → Prop) (s : HtkClips) : List ClipOp → Prop
  | [] => True
  | op :: ops => condition s op ∧ ∀ s', clipStep s op = some s' → Along condition s' ops

abbrev AllQuiet (s : HtkClips) (ops : List ClipOp) : Prop := Along Quiet s ops

instance (clip other : HtkClip) : Decidable (Within clip other) :=
  decidable_of_iff (other.x ≤ clip.x ∧ other.y ≤ clip.y ∧ clip.x2 ≤ other.x2 ∧ clip.y2 ≤ other.y2)
    ⟨fun sides => ⟨sides.1, sides.2.1, sides.2.2.1, sides.2.2.2⟩,
      fun within => ⟨within.x, within.y, within.x2, within.y2⟩⟩

instance decidableKept (s : HtkClips) : (op : ClipOp) → Decidable (Kept s op)
  | .set _ _ _ _ => by unfold Kept; infer_instance
  | .all _ _ => by unfold Kept; infer_instance
  | .push => .isTrue trivial
  | .pop => .isTrue trivial
  | .chr _ _ => .isTrue trivial

instance decidableNarrows (s : HtkClips) : (op : ClipOp) → Decidable (Narrows s op)
  | .all _ _ => by unfold Narrows; infer_instance
  | .set _ _ _ _ => .isTrue trivial
  | .push => .isTrue trivial
  | .pop => .isTrue trivial
  | .chr _ _ => .isTrue trivial

instance (s : HtkClips) (op : ClipOp) : Decidable (Quiet s op) := by
  unfold Quiet
  infer_instance

instance decidableAlong (condition : HtkClips → ClipOp → Prop)
    [∀ s op, Decidable (condition s op)] (s : HtkClips) :
    (ops : List ClipOp) → Decidable (Along condition s ops)
  | [] => .isTrue trivial
  | op :: ops =>
    match isStep : clipStep s op with
    | none => decidable_of_iff (condition s op) (by simp [Along, isStep])
    | some s' =>
      have := decidableAlong condition s' ops
      decidable_of_iff (condition s op ∧ Along condition s' ops) (by simp [Along, isStep])

/-! ## Clips -/

theorem Within.refl (clip : HtkClip) : Within clip clip :=
  ⟨Int.le_refl _, Int.le_refl _, Int.le_refl _, Int.le_refl _⟩

variable {a b : HtkClip}

theorem Within.trans {c : HtkClip} (first : Within a b) (second : Within b c) : Within a c :=
  ⟨second.x.trans first.x, second.y.trans first.y, first.x2.trans second.x2,
    first.y2.trans second.y2⟩

theorem Within.antisymm (first : Within a b) (second : Within b a) : a = b := by
  have x := Int.le_antisymm second.x first.x
  have y := Int.le_antisymm second.y first.y
  have x2 := Int.le_antisymm first.x2 second.x2
  have y2 := Int.le_antisymm first.y2 second.y2
  cases a
  cases b
  cases x
  cases y
  cases x2
  cases y2
  rfl

theorem Within.inside {cell : Cell} (within : Within a b) (inside : Inside a cell) :
    Inside b cell :=
  ⟨within.x.trans inside.1, within.y.trans inside.2.1, Int.lt_of_lt_of_le inside.2.2.1 within.x2,
    Int.lt_of_lt_of_le inside.2.2.2 within.y2⟩

section Sets

variable (x y w h : Int) (clip : HtkClip)

theorem htkClipSet_eq : htkClipSet x y w h clip =
    ⟨max clip.x x, max clip.y y, min clip.x2 (i64 (x + w)), min clip.y2 (i64 (y + h))⟩ := by
  unfold htkClipSet
  rw [HtkClip.mk.injEq]
  exact ⟨by omega, by omega, by omega, by omega⟩

theorem htkClipSet_within : Within (htkClipSet x y w h clip) clip := by
  rw [htkClipSet_eq]
  exact ⟨Int.le_max_left _ _, Int.le_max_left _ _, Int.min_le_left _ _, Int.min_le_left _ _⟩

theorem htkClipSet_self_iff : htkClipSet x y w h clip = clip ↔
    x ≤ clip.x ∧ y ≤ clip.y ∧ clip.x2 ≤ i64 (x + w) ∧ clip.y2 ≤ i64 (y + h) := by
  rw [htkClipSet_eq]
  cases clip with
  | mk cx cy cx2 cy2 =>
    rw [HtkClip.mk.injEq]
    dsimp only
    omega

theorem htkClipSet_mono {other : HtkClip} (within : Within clip other) :
    Within (htkClipSet x y w h clip) (htkClipSet x y w h other) := by
  have left := within.x
  have top := within.y
  have right := within.x2
  have bottom := within.y2
  rw [htkClipSet_eq, htkClipSet_eq]
  constructor
  · dsimp only
    omega
  · dsimp only
    omega
  · dsimp only
    omega
  · dsimp only
    omega

end Sets

theorem narrowed_mono {clip other : HtkClip} (within : Within clip other) (rects : List Rect) :
    Within (narrowed clip rects) (narrowed other rects) := by
  induction rects generalizing clip other with
  | nil => exact within
  | cons rect rects ih => exact ih (htkClipSet_mono rect.x rect.y rect.w rect.h clip within)

theorem narrowed_within (clip : HtkClip) (rects : List Rect) :
    Within (narrowed clip rects) clip := by
  induction rects generalizing clip with
  | nil => exact Within.refl clip
  | cons rect rects ih => exact (ih _).trans (htkClipSet_within _ _ _ _ _)

/-- What is inside of the narrowed clip is inside of every viewport. -/
theorem narrowed_inside {clip : HtkClip} {rects : List Rect} {cell : Cell}
    (inside : Inside (narrowed clip rects) cell) : ∀ rect ∈ rects, rect.x ≤ cell.1 ∧
      rect.y ≤ cell.2 ∧ cell.1 < i64 (rect.x + rect.w) ∧ cell.2 < i64 (rect.y + rect.h) := by
  induction rects generalizing clip with
  | nil =>
    intro rect member
    cases member
  | cons first rects ih =>
    intro rect member
    rw [List.mem_cons] at member
    cases member with
    | inr inRest => exact ih inside rect inRest
    | inl isFirst =>
      have isInside := (narrowed_within _ rects).inside inside
      dsimp only at isInside
      rw [htkClipSet_eq] at isInside
      unfold Inside at isInside
      dsimp only at isInside
      rw [isFirst]
      omega

/-! ## Runs -/

section Runs

variable {s s' s₁ s₂ : HtkClips} {ops more : List ClipOp}

theorem clipRun_append (s : HtkClips) (ops more : List ClipOp) :
    clipRun s (ops ++ more) = (clipRun s ops).bind fun s' => clipRun s' more :=
  List.foldlM_append

theorem clipRun_cons (s : HtkClips) (op : ClipOp) (ops : List ClipOp) :
    clipRun s (op :: ops) = (clipStep s op).bind fun s' => clipRun s' ops := rfl

theorem clipRun_then (isRun : clipRun s ops = some s₁) (isNext : clipRun s₁ more = some s₂) :
    clipRun s (ops ++ more) = some s₂ := by
  rw [clipRun_append, isRun, Option.bind_some, isNext]

theorem along_append {condition : HtkClips → ClipOp → Prop} : Along condition s (ops ++ more) ↔
    Along condition s ops ∧ ∀ s', clipRun s ops = some s' → Along condition s' more := by
  induction ops generalizing s with
  | nil =>
    constructor
    · intro along
      refine ⟨trivial, ?_⟩
      intro s' isRun
      cases isRun
      exact along
    · intro along
      exact along.2 s rfl
  | cons op ops ih =>
    rw [List.cons_append, Along, Along]
    constructor
    · intro along
      refine ⟨⟨along.1, fun s' isStep => (ih.mp (along.2 s' isStep)).1⟩, ?_⟩
      intro s'' isRun
      rw [clipRun_cons, Option.bind_eq_some_iff] at isRun
      obtain ⟨s', isStep, isRun⟩ := isRun
      exact (ih.mp (along.2 s' isStep)).2 s'' isRun
    · intro along
      refine ⟨along.1.1, fun s' isStep => ih.mpr ⟨along.1.2 s' isStep, ?_⟩⟩
      intro s'' isRun
      refine along.2 s'' ?_
      rw [clipRun_cons, isStep, Option.bind_some, isRun]

theorem Along.mono {condition weaker : HtkClips → ClipOp → Prop}
    (implies : ∀ s op, condition s op → weaker s op) (along : Along condition s ops) :
    Along weaker s ops := by
  induction ops generalizing s with
  | nil => trivial
  | cons op ops ih => exact ⟨implies s op along.1, fun s' isStep => ih (along.2 s' isStep)⟩

/-- The slots of the open sections. -/
def SameSlots (s s' : HtkClips) : Prop :=
  ∀ (i : Nat) (inside : i < htkClipDepth), (i : Int) < s.sp →
    s'.stack.get ⟨i, inside⟩ = s.stack.get ⟨i, inside⟩

/-- A run that has grown by drawing inside of the clip, without widening it. -/
structure Draws (s s' : HtkClips) : Prop where
  within : Within s'.clip s.clip
  cells : ∃ new, s'.cells = new ++ s.cells ∧ ∀ cell ∈ new, Inside s.clip cell

theorem SameSlots.trans (first : SameSlots s s₁) (deeper : s.sp ≤ s₁.sp)
    (second : SameSlots s₁ s₂) : SameSlots s s₂ := by
  intro i bound below
  rw [second i bound (by omega), first i bound below]

theorem Draws.refl (s : HtkClips) : Draws s s :=
  ⟨Within.refl _, [], rfl, fun _ member => (List.not_mem_nil member).elim⟩

theorem Draws.trans (first : Draws s s₁) (second : Draws s₁ s₂) : Draws s s₂ := by
  obtain ⟨new, isNew, inside⟩ := first.cells
  obtain ⟨newer, isNewer, inside'⟩ := second.cells
  refine ⟨second.within.trans first.within, newer ++ new, ?_, ?_⟩
  · rw [isNewer, isNew, List.append_assoc]
  · intro cell member
    rw [List.mem_append] at member
    cases member with
    | inl isNewer => exact first.within.inside (inside' cell isNewer)
    | inr isNew => exact inside cell isNew

theorem clip_draws {clip : HtkClip} (within : Within clip s.clip) :
    Draws s { s with clip := clip } :=
  ⟨within, [], rfl, fun _ member => (List.not_mem_nil member).elim⟩

theorem chr_draws (x y : Int) (s : HtkClips) : Draws s (htkChr x y s) ∧ (htkChr x y s).sp = s.sp ∧
    (htkChr x y s).clip = s.clip ∧ (htkChr x y s).stack = s.stack := by
  unfold htkChr
  split
  · next inside =>
      refine ⟨⟨Within.refl _, [(x, y)], rfl, ?_⟩, rfl, rfl, rfl⟩
      intro cell member
      rw [List.mem_singleton] at member
      rw [member]
      exact inside
  · exact ⟨Draws.refl s, rfl, rfl, rfl⟩

theorem push_draws (outer : 0 ≤ s.sp) : ∃ s', htkClipPush s = some s' ∧ Draws s s' ∧
    SameSlots s s' ∧ s'.sp = s.sp + 1 ∧ s'.clip = s.clip ∧
    ∀ inside : s.sp.toNat < htkClipDepth, s'.stack.get ⟨s.sp.toNat, inside⟩ = s.clip := by
  have depth : htkClipDepth = 8 := rfl
  unfold htkClipPush
  by_cases full : s.sp + 1 > htkClipDepth
  · rw [if_pos full]
    refine ⟨_, rfl, ⟨Within.refl _, [], rfl, fun _ member => (List.not_mem_nil member).elim⟩,
      fun _ _ _ => rfl, rfl, rfl, ?_⟩
    intro inside
    omega
  · have inside : 0 ≤ s.sp ∧ s.sp.toNat < htkClipDepth := by omega
    rw [if_neg full, dif_pos inside]
    refine ⟨_, rfl, ⟨Within.refl _, [], rfl, fun _ member => (List.not_mem_nil member).elim⟩,
      ?_, rfl, rfl, ?_⟩
    · intro i bound below
      exact Vector.getElem_set_ne (by exact inside.2) bound (by omega)
    · intro _
      exact Vector.getElem_set_self (by exact inside.2)

theorem pop_spec (open_ : 0 < s.sp) : ∃ s', htkClipPop s = some s' ∧ s'.sp = s.sp - 1 ∧
    s'.stack = s.stack ∧ s'.cells = s.cells ∧ (htkClipDepth < s.sp → s'.clip = s.clip) ∧
    ∀ inside : (s.sp - 1).toNat < htkClipDepth,
      s'.clip = s.stack.get ⟨(s.sp - 1).toNat, inside⟩ := by
  have depth : htkClipDepth = 8 := rfl
  unfold htkClipPop
  by_cases skipped : s.sp - 1 ≥ htkClipDepth
  · rw [if_pos skipped]
    refine ⟨_, rfl, rfl, rfl, rfl, fun _ => rfl, ?_⟩
    intro inside
    omega
  · have inside : 0 ≤ s.sp - 1 ∧ (s.sp - 1).toNat < htkClipDepth := by omega
    rw [if_neg skipped, dif_pos inside]
    refine ⟨_, rfl, rfl, rfl, rfl, ?_, fun _ => rfl⟩
    intro deep
    omega

structure Closed (s s' : HtkClips) (inner : List ClipOp) : Prop where
  isRun : clipRun s (.push :: (inner ++ [.pop])) = some s'
  slots : SameSlots s s'
  draws : Along Narrows s (.push :: (inner ++ [.pop])) → Draws s s'
  sp : s'.sp = s.sp
  restored : s.sp < htkClipDepth → s'.clip = s.clip
  kept : htkClipDepth ≤ s.sp → ∃ pushed last, htkClipPush s = some pushed ∧
    pushed.sp = s.sp + 1 ∧ pushed.clip = s.clip ∧ clipRun pushed inner = some last ∧
      s'.clip = last.clip

theorem closed_of_inner {inner : List ClipOp} (outer : 0 ≤ s.sp)
    (isInner : ∀ s : HtkClips, 0 ≤ s.sp → ∃ s', clipRun s inner = some s' ∧ SameSlots s s' ∧
      (Along Narrows s inner → Draws s s') ∧ s'.sp = s.sp) :
    ∃ s', Closed s s' inner := by
  have depth : htkClipDepth = 8 := rfl
  obtain ⟨pushed, isPush, push_draws, push_slots, push_sp, push_clip, saved⟩ := push_draws outer
  obtain ⟨last, isRun, inner_slots, inner_draws, inner_sp⟩ := isInner pushed (by omega)
  obtain ⟨popped, isPop, pop_sp, pop_stack, pop_cells, skipped, given⟩ :=
    pop_spec (s := last) (by omega)
  have slots : SameSlots s last := push_slots.trans (by omega) inner_slots
  have restored : s.sp < htkClipDepth → popped.clip = s.clip := by
    intro shallow
    have inside : s.sp.toNat < htkClipDepth := by omega
    have isSlot : (last.sp - 1).toNat = s.sp.toNat := by omega
    have isClip := given (by omega)
    simp only [isSlot] at isClip
    rw [isClip, inner_slots _ inside (by omega), saved inside]
  have kept : htkClipDepth ≤ s.sp → popped.clip = last.clip := fun deep => skipped (by omega)
  refine ⟨popped, ?_, ?_, ?_, by omega, restored,
    fun deep => ⟨pushed, last, isPush, push_sp, push_clip, isRun, kept deep⟩⟩
  · rw [clipRun_cons]
    change (htkClipPush s).bind _ = _
    rw [isPush, Option.bind_some]
    refine clipRun_then isRun ?_
    rw [clipRun_cons]
    change (htkClipPop last).bind _ = _
    rw [isPop]
    rfl
  · intro i bound below
    rw [pop_stack, slots i bound below]
  · intro narrows
    have draws := push_draws.trans (inner_draws (along_append.mp (narrows.2 pushed isPush)).1)
    refine ⟨?_, ?_⟩
    · by_cases shallow : s.sp < htkClipDepth
      · rw [restored shallow]
        exact Within.refl _
      · rw [kept (by omega)]
        exact draws.within
    · rw [pop_cells]
      exact draws.cells

/-- Balanced calls succeed, and draw inside of the clip if none of them widens it. -/
theorem balanced_draws (balanced : Balanced ClipOp.push .pop ops) (outer : 0 ≤ s.sp) :
    ∃ s', clipRun s ops = some s' ∧ SameSlots s s' ∧ (Along Narrows s ops → Draws s s') ∧
      s'.sp = s.sp := by
  induction balanced generalizing s with
  | nil => exact ⟨s, rfl, fun _ _ _ => rfl, fun _ => Draws.refl s, rfl⟩
  | @plain op rest notOpen notClose _ ih =>
    have steps : ∃ s', clipStep s op = some s' ∧ s'.stack = s.stack ∧
        (Narrows s op → Draws s s') ∧ s'.sp = s.sp := by
      cases op with
      | push => exact absurd rfl notOpen
      | pop => exact absurd rfl notClose
      | set x y w h => exact ⟨_, rfl, rfl, fun _ => clip_draws (htkClipSet_within ..), rfl⟩
      | all termWidth termHeight => exact ⟨_, rfl, rfl, fun narrows => clip_draws narrows, rfl⟩
      | chr x y =>
        obtain ⟨draws, sp, _, stack⟩ := chr_draws x y s
        exact ⟨_, rfl, stack, fun _ => draws, sp⟩
    obtain ⟨s', isStep, stack, draws, sp⟩ := steps
    obtain ⟨s'', isRun, slots, more, sp'⟩ := ih (s := s') (by omega)
    refine ⟨s'', ?_, ?_, fun narrows => (draws narrows.1).trans (more (narrows.2 s' isStep)),
      by omega⟩
    · rw [clipRun_cons, isStep, Option.bind_some, isRun]
    · intro i bound below
      rw [slots i bound (by omega), stack]
  | @nested inner rest _ _ inner_ih rest_ih =>
    obtain ⟨s', closed⟩ := closed_of_inner outer fun s outer => inner_ih outer
    have sp := closed.sp
    obtain ⟨s'', isRun, slots, more, sp'⟩ := rest_ih (s := s') (by omega)
    rw [← List.singleton_append, List.append_cons inner, ← List.append_assoc]
    refine ⟨s'', clipRun_then closed.isRun isRun, closed.slots.trans (by omega) slots, ?_, by omega⟩
    intro narrows
    have both := along_append.mp narrows
    exact (closed.draws both.1).trans (more (both.2 s' closed.isRun))

theorem balanced_closed (balanced : Balanced ClipOp.push .pop ops) (outer : 0 ≤ s.sp) :
    ∃ s', Closed s s' ops :=
  closed_of_inner outer fun _ outer => balanced_draws balanced outer

theorem unclosed_draws (unclosed : Unclosed ClipOp.push .pop ops) (outer : 0 ≤ s.sp) :
    ∃ s', clipRun s ops = some s' ∧ (Along Narrows s ops → Draws s s') ∧ s.sp ≤ s'.sp := by
  induction unclosed generalizing s with
  | balanced isWord =>
    obtain ⟨s', isRun, _, draws, sp⟩ := balanced_draws isWord outer
    exact ⟨s', isRun, draws, by omega⟩
  | @opened front rest isFront _ ih =>
    obtain ⟨s', isRun, _, draws, sp⟩ := balanced_draws isFront outer
    obtain ⟨pushed, isPush, more, _, push_sp, _⟩ := push_draws (s := s') (by omega)
    obtain ⟨s'', isRest, rest_draws, rest_sp⟩ := ih (s := pushed) (by omega)
    refine ⟨s'', clipRun_then isRun ?_, ?_, by omega⟩
    · rw [clipRun_cons]
      change (htkClipPush s').bind _ = _
      rw [isPush, Option.bind_some, isRest]
    · intro narrows
      have both := along_append.mp narrows
      exact ((draws both.1).trans more).trans (rest_draws ((both.2 s' isRun).2 pushed isPush))

/-- The calls of a section are made while it is open. -/
theorem balanced_narrows (balanced : Balanced ClipOp.push .pop ops) (open_ : 0 < s.sp)
    (quiet : Along (fun s op => 0 < s.sp → Narrows s op) s ops) : Along Narrows s ops := by
  induction balanced generalizing s with
  | nil => trivial
  | @plain op rest notOpen notClose _ ih =>
    refine ⟨quiet.1 open_, fun s' isStep => ih ?_ (quiet.2 s' isStep)⟩
    have isWord : Balanced ClipOp.push .pop [op] := .plain notOpen notClose .nil
    obtain ⟨next, isRun, _, _, sp⟩ := balanced_draws (s := s) isWord (by omega)
    rw [clipRun_cons, isStep] at isRun
    cases isRun
    omega
  | @nested inner rest isInner _ inner_ih rest_ih =>
    obtain ⟨next, closed⟩ := balanced_closed (s := s) isInner (by omega)
    obtain ⟨pushed, isPush, _, _, push_sp, _⟩ := push_draws (s := s) (by omega)
    have sp := closed.sp
    rw [← List.singleton_append, List.append_cons inner, ← List.append_assoc] at quiet ⊢
    have both := along_append.mp quiet
    refine along_append.mpr ⟨⟨trivial, fun pushed' isPush' => ?_⟩, fun next' isRun => ?_⟩
    · have isState : some pushed' = some pushed := isPush'.symm.trans isPush
      cases isState
      have inside : Along _ pushed (inner ++ [.pop]) := both.1.2 pushed isPush
      change Along Narrows pushed (inner ++ [.pop])
      exact along_append.mpr ⟨inner_ih (by omega) (along_append.mp inside).1,
        fun _ _ => ⟨trivial, fun _ _ => trivial⟩⟩
    · have isState : some next' = some next := isRun.symm.trans closed.isRun
      cases isState
      exact rest_ih (by omega) (both.2 next closed.isRun)

theorem unclosed_narrows (unclosed : Unclosed ClipOp.push .pop ops) (open_ : 0 < s.sp)
    (quiet : AllQuiet s ops) : Along Narrows s ops := by
  have held : Along (fun s op => 0 < s.sp → Narrows s op) s ops :=
    quiet.mono fun _ _ quiet => quiet.2
  clear quiet
  induction unclosed generalizing s with
  | balanced isWord => exact balanced_narrows isWord open_ held
  | @opened front rest isFront _ ih =>
    have both := along_append.mp held
    refine along_append.mpr ⟨balanced_narrows isFront open_ both.1, fun s' isRun => ?_⟩
    obtain ⟨next, isNext, _, _, sp⟩ := balanced_draws (s := s) isFront (by omega)
    rw [isRun] at isNext
    cases isNext
    refine ⟨trivial, fun pushed isPush => ?_⟩
    obtain ⟨pushed', isPush', _, _, push_sp, _⟩ := push_draws (s := s') (by omega)
    have isState : some pushed = some pushed' := isPush.symm.trans isPush'
    cases isState
    exact ih (by omega) ((both.2 s' isRun).2 pushed isPush)

/-! ## Sections that are restored -/

def Restores (s : HtkClips) (ops : List ClipOp) : Prop :=
  ∀ before inner after s₁ s₂, ops = before ++ .push :: (inner ++ .pop :: after) →
    Balanced ClipOp.push .pop inner → clipRun s before = some s₁ →
      clipRun s₁ (.push :: (inner ++ [.pop])) = some s₂ → s₂.clip = s₁.clip

theorem Restores.front (restores : Restores s (ops ++ more)) : Restores s ops := by
  intro before inner after s₁ s₂ isSplit
  apply restores before inner (after ++ more) s₁ s₂
  rw [isSplit, List.append_assoc, List.cons_append, List.append_assoc, List.cons_append]

theorem Restores.back (restores : Restores s (ops ++ more)) (isRun : clipRun s ops = some s') :
    Restores s' more := by
  intro before inner after s₁ s₂ isSplit balanced isBefore
  apply restores (ops ++ before) inner after s₁ s₂ _ balanced (clipRun_then isRun isBefore)
  rw [isSplit, List.append_assoc]

theorem Restores.tail {op : ClipOp} (restores : Restores s (op :: ops))
    (isStep : clipStep s op = some s') : Restores s' ops := by
  have isRun : clipRun s [op] = some s' := by
    rw [clipRun_cons, isStep]
    rfl
  exact restores.back isRun

/-- In a section that is not undone, quiet calls leave the clip. -/
theorem quiet_keeps_clip (balanced : Balanced ClipOp.push .pop ops) (quiet : AllQuiet s ops)
    (deep : htkClipDepth < s.sp) (isRun : clipRun s ops = some s') : s'.clip = s.clip := by
  have depth : htkClipDepth = 8 := rfl
  induction balanced generalizing s s' with
  | nil =>
    cases isRun
    rfl
  | @plain op rest notOpen notClose _ ih =>
    have steps : ∃ next, clipStep s op = some next ∧ next.clip = s.clip ∧ next.sp = s.sp := by
      cases op with
      | push => exact absurd rfl notOpen
      | pop => exact absurd rfl notClose
      | set x y w h => exact ⟨_, rfl, (htkClipSet_self_iff x y w h _).mpr (quiet.1.1 deep), rfl⟩
      | all termWidth termHeight => exact ⟨_, rfl, (quiet.1.1 deep).symm, rfl⟩
      | chr x y => exact ⟨_, rfl, (chr_draws x y s).2.2.1, (chr_draws x y s).2.1⟩
    obtain ⟨next, isStep, clip, sp⟩ := steps
    rw [clipRun_cons, isStep, Option.bind_some] at isRun
    rw [ih (quiet.2 next isStep) (by omega) isRun, clip]
  | @nested inner rest isInner _ inner_ih rest_ih =>
    obtain ⟨next, closed⟩ := balanced_closed (s := s) isInner (by omega)
    obtain ⟨pushed, last, isPush, push_sp, push_clip, isInnerRun, clip⟩ := closed.kept (by omega)
    have sp := closed.sp
    have inner_quiet := (along_append.mp (quiet.2 pushed isPush)).1
    rw [← List.singleton_append, List.append_cons inner, ← List.append_assoc] at quiet isRun
    rw [clipRun_append, List.singleton_append, closed.isRun, Option.bind_some] at isRun
    have rest_quiet := (along_append.mp quiet).2 next closed.isRun
    rw [rest_ih rest_quiet (by omega) isRun, clip, inner_ih inner_quiet (by omega) isInnerRun,
      push_clip]

theorem closed_restores {inner : List ClipOp} (isInner : Balanced ClipOp.push .pop inner)
    (quiet : AllQuiet s (.push :: (inner ++ more))) (closed : Closed s s' inner) :
    s'.clip = s.clip := by
  by_cases shallow : s.sp < htkClipDepth
  · exact closed.restored shallow
  · have deep : (htkClipDepth : Int) ≤ s.sp := by omega
    obtain ⟨pushed, last, isPush, push_sp, push_clip, isInnerRun, clip⟩ := closed.kept deep
    have inner_quiet := (along_append.mp (quiet.2 pushed isPush)).1
    rw [clip, quiet_keeps_clip isInner inner_quiet (by omega) isInnerRun, push_clip]

theorem restores_of_quiet (balanced : Balanced ClipOp.push .pop ops) (outer : 0 ≤ s.sp)
    (quiet : AllQuiet s ops) : Restores s ops := by
  intro before inner after s₁ s₂ isSplit isInner isBefore isSection
  obtain ⟨s', isRun, _, sp⟩ := unclosed_draws (balanced.unclosed isSplit) outer
  rw [isBefore] at isRun
  cases isRun
  rw [isSplit] at quiet
  have section_quiet := (along_append.mp quiet).2 s₁ isBefore
  obtain ⟨s', closed⟩ := balanced_closed (s := s₁) isInner (by omega)
  rw [closed.isRun] at isSection
  cases isSection
  exact closed_restores isInner section_quiet closed

/-- In a section that is not undone, a clip with which the rest goes back to the first one is the
first one. -/
theorem clip_unchanged {clip : HtkClip} (isRest : Balanced ClipOp.push .pop ops)
    (held : Along (fun s op => 0 < s.sp → Narrows s op) { s with clip := clip } ops)
    (within : Within clip s.clip) (isRun : clipRun { s with clip := clip } ops = some s')
    (same : htkClipDepth < s.sp → s'.clip = s.clip) (deep : htkClipDepth < s.sp) :
    clip = s.clip := by
  have depth : htkClipDepth = 8 := rfl
  have open_ : 0 < s.sp := by omega
  obtain ⟨last, isLast, _, draws, _⟩ := balanced_draws (s := { s with clip := clip }) isRest
    (Int.le_of_lt open_)
  rw [isRun] at isLast
  cases isLast
  have back := (draws (balanced_narrows isRest open_ held)).within
  rw [same deep] at back
  exact within.antisymm back

/-- Where each section is undone and none is widened to the screen, nothing is narrowed below the
last slot. -/
theorem quiet_of_restores (balanced : Balanced ClipOp.push .pop ops) (outer : 0 ≤ s.sp)
    (held : Along (fun s op => 0 < s.sp → Narrows s op) s ops)
    (restores : Restores s ops) (isRun : clipRun s ops = some s')
    (same : htkClipDepth < s.sp → s'.clip = s.clip) : AllQuiet s ops := by
  have depth : htkClipDepth = 8 := rfl
  induction balanced generalizing s s' with
  | nil => trivial
  | @plain op rest notOpen notClose isRest ih =>
    cases op with
    | push => exact absurd rfl notOpen
    | pop => exact absurd rfl notClose
    | chr x y =>
      have sp := (chr_draws x y s).2.1
      have clip := (chr_draws x y s).2.2.1
      refine ⟨⟨trivial, fun _ => trivial⟩, fun next isNext => ?_⟩
      cases isNext
      apply ih (by omega) (held.2 _ rfl) (restores.tail rfl) isRun
      intro deep
      rw [clip]
      exact same (by omega)
    | set x y w h =>
      have within := htkClipSet_within x y w h s.clip
      have unchanged := clip_unchanged (s := s) isRest (held.2 _ rfl) within isRun same
      refine ⟨⟨fun deep => (htkClipSet_self_iff x y w h _).mp (unchanged deep), fun _ => trivial⟩,
        fun next isNext => ?_⟩
      cases isNext
      apply ih (s := { s with clip := htkClipSet x y w h s.clip }) outer (held.2 _ rfl)
        (restores.tail rfl) isRun
      intro deep
      exact (same deep).trans (unchanged deep).symm
    | all termWidth termHeight =>
      have unchanged (deep : htkClipDepth < s.sp) : htkClipAll termWidth termHeight = s.clip :=
        clip_unchanged (s := s) isRest (held.2 _ rfl) (held.1 (by omega)) isRun same deep
      refine ⟨⟨fun deep => (unchanged deep).symm, held.1⟩, fun next isNext => ?_⟩
      cases isNext
      apply ih (s := { s with clip := htkClipAll termWidth termHeight }) outer (held.2 _ rfl)
        (restores.tail rfl) isRun
      intro deep
      exact (same deep).trans (unchanged deep).symm
  | @nested inner rest isInner _ inner_ih rest_ih =>
    obtain ⟨next, closed⟩ := balanced_closed (s := s) isInner outer
    have sp := closed.sp
    have isNext : next.clip = s.clip :=
      restores [] inner rest s next rfl isInner rfl closed.isRun
    have isSplit : ClipOp.push :: (inner ++ .pop :: rest) =
        .push :: (inner ++ [.pop]) ++ rest := by
      rw [List.cons_append, List.append_assoc, List.singleton_append]
    rw [isSplit] at held
    have both := along_append.mp held
    have inner_quiet : AllQuiet s (.push :: (inner ++ [.pop])) := by
      refine ⟨⟨trivial, fun _ => trivial⟩, fun pushed isPush => along_append.mpr ⟨?_,
        fun _ _ => ⟨⟨trivial, fun _ => trivial⟩, fun _ _ => trivial⟩⟩⟩
      obtain ⟨pushed', isPush', _, _, push_sp, push_clip, _⟩ := push_draws outer
      have isState : some pushed = some pushed' := isPush.symm.trans isPush'
      cases isState
      obtain ⟨last, isInnerRun, _⟩ := balanced_draws (s := pushed) isInner (by omega)
      have inner_restores := (restores.tail isPush).front
      have inner_held := (along_append.mp (both.1.2 pushed isPush)).1
      apply inner_ih (by omega) inner_held inner_restores isInnerRun
      intro deep
      obtain ⟨pushed', last', isPush', _, _, isInnerRun', clip⟩ := closed.kept (by omega)
      have isState : some pushed = some pushed' := isPush.symm.trans isPush'
      cases isState
      rw [isInnerRun] at isInnerRun'
      cases isInnerRun'
      rw [← clip, isNext, push_clip]
    rw [isSplit] at restores isRun ⊢
    refine along_append.mpr ⟨inner_quiet, fun next' isNext' => ?_⟩
    rw [closed.isRun] at isNext'
    cases isNext'
    rw [clipRun_append, closed.isRun, Option.bind_some] at isRun
    apply rest_ih (by omega) (both.2 next closed.isRun) (restores.back closed.isRun) isRun
    intro deep
    rw [isNext]
    exact same (by omega)

/-- The sections of the calls shrink. -/
def SectionsShrink (s : HtkClips) (ops : List ClipOp) : Prop :=
  ∀ before inner after s₁ pushed, ops = before ++ .push :: (inner ++ .pop :: after) →
    Balanced ClipOp.push .pop inner → clipRun s before = some s₁ →
      htkClipPush s₁ = some pushed → Shrinks pushed inner

theorem SectionsShrink.front (shrink : SectionsShrink s (ops ++ more)) : SectionsShrink s ops := by
  intro before inner after s₁ pushed isSplit
  apply shrink before inner (after ++ more) s₁ pushed
  rw [isSplit, List.append_assoc, List.cons_append, List.append_assoc, List.cons_append]

theorem SectionsShrink.back (shrink : SectionsShrink s (ops ++ more))
    (isRun : clipRun s ops = some s') : SectionsShrink s' more := by
  intro before inner after s₁ pushed isSplit balanced isBefore
  apply shrink (ops ++ before) inner after s₁ pushed _ balanced (clipRun_then isRun isBefore)
  rw [isSplit, List.append_assoc]

theorem Shrinks.back (shrinks : Shrinks s (ops ++ more)) (isOps : Balanced ClipOp.push .pop ops)
    (isRun : clipRun s ops = some s') : Shrinks s' more := by
  intro front middle back s₁ s₂ isSplit isFront isRest isFrontRun
  apply shrinks (ops ++ front) middle back s₁ s₂ _ (isOps.append isFront) isRest
    (clipRun_then isRun isFrontRun)
  rw [isSplit, List.append_assoc]

theorem sections_shrink (balanced : Balanced ClipOp.push .pop ops) (outer : 0 ≤ s.sp)
    (quiet : AllQuiet s ops) : SectionsShrink s ops := by
  intro before inner after s₁ pushed isSplit isInner isBefore isPush front middle back s₂ s₃
    isInnerSplit isFront isRest isFrontRun isMiddle
  obtain ⟨s', isRun, _, sp⟩ := unclosed_draws (balanced.unclosed isSplit) outer
  rw [isBefore] at isRun
  cases isRun
  obtain ⟨pushed', isPush', _, _, push_sp, _⟩ := push_draws (s := s₁) (by omega)
  rw [isPush] at isPush'
  cases isPush'
  obtain ⟨s', isRun, _, _, front_sp⟩ := balanced_draws (s := pushed) isFront (by omega)
  rw [isFrontRun] at isRun
  cases isRun
  obtain ⟨s', isRun, draws, _⟩ := unclosed_draws (s := s₂) (isRest.unclosed rfl) (by omega)
  rw [isMiddle] at isRun
  cases isRun
  rw [isSplit] at quiet
  have section_quiet := ((along_append.mp quiet).2 s₁ isBefore).2 pushed isPush
  rw [isInnerSplit, List.append_assoc, along_append] at section_quiet
  have rest_quiet := section_quiet.2 s₂ isFrontRun
  rw [List.append_assoc] at rest_quiet
  have middle_quiet := (along_append.mp rest_quiet).1
  exact (draws (unclosed_narrows (isRest.unclosed rfl) (by omega) middle_quiet)).within

/-- Where the sections shrink, none is widened to the screen. -/
theorem held_of_shrinks (balanced : Balanced ClipOp.push .pop ops) (outer : 0 ≤ s.sp)
    (sections : SectionsShrink s ops) (shrinks : 0 < s.sp → Shrinks s ops) :
    Along (fun s op => 0 < s.sp → Narrows s op) s ops := by
  induction balanced generalizing s with
  | nil => trivial
  | @plain op rest notOpen notClose isRest ih =>
    have isWord : Balanced ClipOp.push .pop [op] := .plain notOpen notClose .nil
    refine ⟨?_, fun s' isStep => ?_⟩
    · intro open_
      cases op with
      | all termWidth termHeight =>
        exact shrinks open_ [] [.all termWidth termHeight] rest s _ rfl .nil
          (isWord.append isRest) rfl rfl
      | _ => trivial
    · have isRun : clipRun s [op] = some s' := by
        rw [clipRun_cons, isStep]
        rfl
      obtain ⟨next, isNext, _, _, sp⟩ := balanced_draws (s := s) isWord outer
      rw [isRun] at isNext
      cases isNext
      have behind : SectionsShrink s ([op] ++ rest) := sections
      have behind' (open_ : 0 < s.sp) : Shrinks s ([op] ++ rest) := shrinks open_
      exact ih (by omega) (behind.back isRun) fun open_ => (behind' (by omega)).back isWord isRun
  | @nested inner rest isInner isRest inner_ih rest_ih =>
    obtain ⟨next, closed⟩ := balanced_closed (s := s) isInner outer
    obtain ⟨pushed, isPush, _, _, push_sp, _⟩ := push_draws outer
    have sp := closed.sp
    have isPushRun : clipRun s [.push] = some pushed := by
      rw [clipRun_cons]
      change (htkClipPush s).bind _ = _
      rw [isPush]
      rfl
    have behind : SectionsShrink s ([.push] ++ (inner ++ .pop :: rest)) := sections
    have inner_sections : SectionsShrink pushed inner := (behind.back isPushRun).front
    have inner_shrinks : Shrinks pushed inner :=
      sections [] inner rest s pushed rfl isInner rfl isPush
    have isWord : Balanced ClipOp.push .pop (.push :: (inner ++ [.pop])) := .nested isInner .nil
    rw [← List.singleton_append, List.append_cons inner, ← List.append_assoc] at sections shrinks ⊢
    refine along_append.mpr ⟨⟨fun _ => trivial, fun pushed' isPush' => ?_⟩, fun next' isRun => ?_⟩
    · have isState : some pushed' = some pushed := isPush'.symm.trans isPush
      cases isState
      change Along _ pushed (inner ++ [.pop])
      exact along_append.mpr ⟨inner_ih (by omega) inner_sections fun _ => inner_shrinks,
        fun _ _ => ⟨fun _ => trivial, fun _ _ => trivial⟩⟩
    · have isState : some next' = some next := isRun.symm.trans closed.isRun
      cases isState
      exact rest_ih (by omega) (sections.back closed.isRun)
        fun open_ => (shrinks (by omega)).back isWord closed.isRun

theorem nests_iff (balanced : Balanced ClipOp.push .pop ops) (outer : s.sp = 0) :
    Nests s ops ↔ AllQuiet s ops := by
  obtain ⟨s', isRun, _⟩ := balanced_draws (s := s) balanced (by omega)
  constructor
  · intro nests
    have held := held_of_shrinks balanced (by omega) nests.shrinks fun open_ => by omega
    apply quiet_of_restores balanced (by omega) held nests.restores isRun
    intro deep
    have depth : htkClipDepth = 8 := rfl
    omega
  · intro quiet
    exact ⟨⟨s', isRun⟩, restores_of_quiet balanced (by omega) quiet,
      sections_shrink balanced (by omega) quiet⟩

/-! ## Controls -/

def NoAll (ops : List ClipOp) : Prop := ∀ termWidth termHeight, .all termWidth termHeight ∉ ops

inductive Level : List ClipOp → Prop
  | nil : Level []
  | chr {x y : Int} {rest : List ClipOp} (isRest : Level rest) : Level (.chr x y :: rest)
  | nested {inner rest : List ClipOp} (isInner : Balanced ClipOp.push .pop inner)
      (noAll : NoAll inner) (isRest : Level rest) : Level (.push :: (inner ++ .pop :: rest))

theorem NoAll.narrows (noAll : NoAll ops) : Along Narrows s ops := by
  induction ops generalizing s with
  | nil => trivial
  | cons op ops ih =>
    refine ⟨?_, fun s' _ => ih fun _ _ member => noAll _ _ (List.mem_cons_of_mem _ member)⟩
    cases op with
    | all termWidth termHeight => exact absurd (List.mem_cons_self ..) (noAll termWidth termHeight)
    | _ => trivial

theorem Level.balanced (level : Level ops) : Balanced ClipOp.push .pop ops := by
  induction level with
  | nil => exact .nil
  | chr _ ih => exact .plain ClipOp.noConfusion ClipOp.noConfusion ih
  | nested isInner _ _ ih => exact .nested isInner ih

theorem Level.noAll (level : Level ops) : NoAll ops := by
  intro termWidth termHeight
  induction level with
  | nil => exact List.not_mem_nil
  | chr _ ih =>
    rw [List.mem_cons, not_or]
    exact ⟨ClipOp.noConfusion, ih⟩
  | nested _ noAll _ ih =>
    rw [List.mem_cons, List.mem_append, List.mem_cons, not_or, not_or, not_or]
    exact ⟨ClipOp.noConfusion, noAll _ _, ClipOp.noConfusion, ih⟩

theorem Level.append (level : Level ops) (other : Level more) : Level (ops ++ more) := by
  induction level with
  | nil => exact other
  | chr _ ih => exact .chr ih
  | nested isInner noAll _ ih =>
    rw [List.cons_append, List.append_assoc, List.cons_append]
    exact .nested isInner noAll ih

theorem chrs_level (cells : List Cell) : Level (chrs cells) := by
  unfold chrs
  induction cells with
  | nil => exact .nil
  | cons cell cells ih => exact .chr ih

theorem Level.framed (x y w h : Int) (level : Level ops) (other : Level more) :
    Level (.push :: (.set x y w h :: ops ++ .pop :: more)) :=
  .nested (.plain ClipOp.noConfusion ClipOp.noConfusion level.balanced)
    (fun _ _ member => level.noAll _ _ ((List.mem_cons.mp member).resolve_left ClipOp.noConfusion))
    other

mutual

theorem htkDrawCtl_level : ∀ c, Level (htkDrawCtl c)
  | .plain hidden paint kids => by
      rw [htkDrawCtl]
      split
      · exact .nil
      · exact (chrs_level paint).append (htkKidsDraw_level kids)
  | .scroll _ _ _ _ _ [] _ => by
      rw [htkDrawCtl]
      exact .nil
  | .scroll hidden x y w h (k :: _) bar => by
      rw [htkDrawCtl]
      split
      · exact .nil
      · exact (htkDrawCtl_level k).framed x y _ h (chrs_level bar)
  | .canvas hidden x y w h fill paint => by
      rw [htkDrawCtl]
      split
      · exact .nil
      · apply (chrs_level fill).append
        cases paint with
        | none => exact .nil
        | some paint => exact (chrs_level paint).framed x y w h .nil

theorem htkKidsDraw_level : ∀ kids, Level (htkKidsDraw kids)
  | [] => .nil
  | k :: kids => (htkDrawCtl_level k).append (htkKidsDraw_level kids)

end

/-- Quiet calls leave the clip where nothing outside of sections sets it. -/
theorem Level.keeps_clip (level : Level ops) (outer : 0 ≤ s.sp) (quiet : AllQuiet s ops)
    (isRun : clipRun s ops = some s') : s'.clip = s.clip := by
  induction level generalizing s with
  | nil =>
    cases isRun
    rfl
  | @chr x y rest _ ih =>
    have sp := (chr_draws x y s).2.1
    rw [ih (s := htkChr x y s) (by omega) (quiet.2 _ rfl) isRun, (chr_draws x y s).2.2.1]
  | @nested inner rest isInner _ _ ih =>
    obtain ⟨next, closed⟩ := balanced_closed (s := s) isInner outer
    have sp := closed.sp
    have restored := closed_restores isInner quiet closed
    rw [← List.singleton_append, List.append_cons inner, ← List.append_assoc] at quiet isRun
    rw [clipRun_append, List.singleton_append, closed.isRun, Option.bind_some] at isRun
    rw [ih (by omega) ((along_append.mp quiet).2 next closed.isRun) isRun, restored]

theorem htkKidsDraw_append (front back : List HtkCtl) :
    htkKidsDraw (front ++ back) = htkKidsDraw front ++ htkKidsDraw back := by
  induction front with
  | nil => rfl
  | cons k front ih => rw [List.cons_append, htkKidsDraw, htkKidsDraw, ih, List.append_assoc]

variable {c sub : HtkCtl} {before : List ClipOp} {rects : List Rect}

/-- A part is drawn with a clip inside of the viewports. -/
theorem Occurs.drawn (occurs : Occurs c before rects sub) (outer : 0 ≤ s.sp)
    (isRun : clipRun s before = some s₁) : 0 ≤ s₁.sp ∧ Within s₁.clip (narrowed s.clip rects) ∧
      (AllQuiet s (htkDrawCtl c) → s₁.clip = narrowed s.clip rects) := by
  induction occurs generalizing s with
  | here c =>
    cases isRun
    exact ⟨outer, Within.refl _, fun _ => rfl⟩
  | @kid paint front back k sub before rects isKid ih =>
    have level := (chrs_level paint).append (htkKidsDraw_level front)
    obtain ⟨next, isNext, _, draws, sp⟩ := balanced_draws level.balanced outer
    have next_within := (draws level.noAll.narrows).within
    rw [clipRun_append, isNext, Option.bind_some] at isRun
    obtain ⟨sp', within, same⟩ := ih (s := next) (by omega) isRun
    refine ⟨sp', within.trans (narrowed_mono next_within rects), ?_⟩
    intro quiet
    rw [htkDrawCtl, if_neg Bool.false_ne_true, htkKidsDraw_append, htkKidsDraw,
      ← List.append_assoc] at quiet
    have both := along_append.mp quiet
    rw [same (along_append.mp (both.2 next isNext)).1, level.keeps_clip outer both.1 isNext]
  | @scrolled x y w h back bar k sub before rects isKid ih =>
    obtain ⟨pushed, isPush, _, _, push_sp, push_clip, _⟩ := push_draws outer
    rw [clipRun_cons] at isRun
    change (htkClipPush s).bind _ = _ at isRun
    rw [isPush, Option.bind_some, clipRun_cons] at isRun
    obtain ⟨sp', within, same⟩ := ih
      (s := { pushed with clip := htkClipSet x y (i64 (w - 1)) h pushed.clip })
      (by dsimp only; omega) isRun
    rw [push_clip] at within same
    refine ⟨sp', within, ?_⟩
    intro quiet
    rw [htkDrawCtl, if_neg Bool.false_ne_true] at quiet
    have set_quiet := quiet.2 pushed isPush
    rw [List.cons_append] at set_quiet
    have kid_quiet := (along_append.mp (set_quiet.2 _ rfl)).1
    rw [push_clip] at kid_quiet
    exact same kid_quiet

theorem staysInside (c : HtkCtl) (outer : 0 ≤ s.sp) : StaysInside s c := by
  intro before rects sub s₁ s₂ occurs isBefore isSub
  obtain ⟨sp, within, _⟩ := occurs.drawn outer isBefore
  have level := htkDrawCtl_level sub
  obtain ⟨s', isRun, _, draws, _⟩ := balanced_draws level.balanced sp
  rw [isSub] at isRun
  cases isRun
  obtain ⟨new, isNew, inside⟩ := (draws level.noAll.narrows).cells
  exact ⟨new, isNew, fun cell member => narrowed_inside (within.inside (inside cell member))⟩

end Runs

/-- Outside of all sections: clips nest if and only if no clip is narrowed while more sections are
open than there are slots and none is widened to the screen while any is open; so do the clips of a
control, whose parts are then drawn with the clips of their containers. Drawing never leaves a
viewport. -/
theorem htkClip_nests_iff {s : HtkClips} (outer : s.sp = 0) :
    (∀ ops, Balanced ClipOp.push .pop ops → (Nests s ops ↔ AllQuiet s ops)) ∧
    (∀ c, Nests s (htkDrawCtl c) ∧ DrawnInPlace s c ↔ AllQuiet s (htkDrawCtl c)) ∧
    ∀ c, StaysInside s c := by
  have low : 0 ≤ s.sp := by omega
  refine ⟨fun ops balanced => nests_iff balanced outer, ?_, fun c => staysInside c low⟩
  intro c
  rw [nests_iff (htkDrawCtl_level c).balanced outer]
  constructor
  · intro both
    exact both.1
  · intro quiet
    refine ⟨quiet, ?_⟩
    intro before rects sub s₁ occurs isBefore
    exact (occurs.drawn low isBefore).2.2 quiet

def fresh (width height : Int) : HtkClips :=
  ⟨htkClipAll width height, Vector.replicate htkClipDepth ⟨0, 0, 0, 0⟩, 0, []⟩

/-- A viewport and what is drawn behind it, after the clip has been reset; then a section in which it
is reset to the same. -/
theorem htkClip_nests_iff_viewport : (fresh 80 25).sp = 0 ∧
    Balanced ClipOp.push .pop
      [.all 132 50, .push, .set 2 2 10 5, .chr 3 3, .pop, .push, .all 132 50, .pop, .chr 90 40] ∧
    Nests (fresh 80 25)
      [.all 132 50, .push, .set 2 2 10 5, .chr 3 3, .pop, .push, .all 132 50, .pop, .chr 90 40] := by
  have viewport : Balanced ClipOp.push .pop [.set 2 2 10 5, .chr 3 3] :=
    .plain ClipOp.noConfusion ClipOp.noConfusion
      (.plain ClipOp.noConfusion ClipOp.noConfusion .nil)
  have reset : Balanced ClipOp.push .pop [.all 132 50] :=
    .plain ClipOp.noConfusion ClipOp.noConfusion .nil
  have behind : Balanced ClipOp.push .pop [.chr 90 40] :=
    .plain ClipOp.noConfusion ClipOp.noConfusion .nil
  have balanced : Balanced ClipOp.push .pop
      [.all 132 50, .push, .set 2 2 10 5, .chr 3 3, .pop, .push, .all 132 50, .pop, .chr 90 40] :=
    .plain ClipOp.noConfusion ClipOp.noConfusion (.nested viewport (.nested reset behind))
  exact ⟨rfl, balanced, ((htkClip_nests_iff rfl).1 _ balanced).mpr (by decide)⟩

/-- Eight open sections, and a ninth in which the clip is narrowed to one cell. -/
def deepSections : List ClipOp :=
  List.replicate 8 .push ++ .push :: ([.set 0 0 1 1] ++ .pop :: List.replicate 8 .pop)

theorem ninth_section_not_restored :
    Balanced ClipOp.push .pop deepSections ∧ ¬ Nests (fresh 80 25) deepSections := by
  have isInner : Balanced ClipOp.push .pop [.set 0 0 1 1] :=
    .plain ClipOp.noConfusion ClipOp.noConfusion .nil
  have around {ops : List ClipOp} (isOps : Balanced ClipOp.push .pop ops) :
      Balanced ClipOp.push .pop (.push :: (ops ++ [.pop])) := .nested isOps .nil
  refine ⟨around (around (around (around (around (around (around (around (around isInner)))))))),
    ?_⟩
  intro nests
  have restored := nests.restores _ _ _ _ _ rfl isInner rfl rfl
  exact absurd restored (by decide)

end Aholyc.Htk.Clip
