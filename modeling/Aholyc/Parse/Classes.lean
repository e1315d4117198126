import Mathlib.Logic.Relation
import Aholyc.Ast
import Aholyc.Lib.Fallible
import Aholyc.Lib.Rounding

/-!
# Classes and unions

`parse_class` of src/parse.c. A declaration is given by the values of its constant
expressions and by its types, whose names are resolved but for the parent's. Sizes and
offsets are `int`s of the C code. Every class is known by its name: a second declaration
changes the type that the first one made.
-/

namespace Aholyc.Parse

open Aholyc.Lib

/-- A power of two, up to the largest that `@align` takes. -/
structure Align where
  log : Nat
  small : log ≤ 20
  deriving DecidableEq

namespace Align

def bytes (a : Align) : BitVec 32 := 1#32 <<< a.log

def one : Align := ⟨0, by decide⟩

def two : Align := ⟨1, by decide⟩

def four : Align := ⟨2, by decide⟩

def eight : Align := ⟨3, by decide⟩

def larger (a b : Align) : Align := if a.log < b.log then b else a

end Align

inductive HintAlign where
  | natural
  | to (align : Align)
  deriving DecidableEq

/-- The type of a member: arrays of a type, from the inside out. -/
structure MemberType where
  base : Ty
  dims : List Word

structure Member where
  name : String
  ty : MemberType
  offset : BitVec 32

structure ClassType where
  name : String
  size : BitVec 32
  align : Align
  isUnion : Bool
  parent : Option String
  members : List Member

abbrev Classes := List ClassType

def findClass (classes : Classes) (name : String) : Option ClassType :=
  classes.find? (·.name = name)

def setClass (classes : Classes) (name : String) (change : ClassType → ClassType) : Classes :=
  classes.map fun cls => if cls.name = name then change cls else cls

def typeSize (classes : Classes) : Ty → BitVec 32
  | .void => 0
  | .int size _ => BitVec.ofNat 32 size.bytes
  | .f64 | .ptr _ | .func .. => 8
  | .cls name => ((findClass classes name).map ClassType.size).getD 0
  | .array base len => typeSize classes base * BitVec.ofNat 32 len

def typeAlign (classes : Classes) : Ty → Align
  | .void | .int .one _ => .one
  | .int .two _ => .two
  | .int .four _ => .four
  | .int .eight _ | .f64 | .ptr _ | .func .. => .eight
  | .cls name => ((findClass classes name).map ClassType.align).getD .one
  | .array base _ => typeAlign classes base

def memberSize (classes : Classes) (ty : MemberType) : BitVec 32 :=
  ty.dims.foldl (fun size len => size * len.setWidth 32) (typeSize classes ty.base)

/-- A declarator with the hints of its declaration. `pointee` holds the parameters and `...` of
a pointer to functions. -/
structure Field where
  name : String
  typespec : Ty
  pointee : Option (List Ty × Bool)
  dims : List Word
  inlineHint : Bool
  bitsHint : Option Nat
  nonnullHint : Bool
  alignHint : Option HintAlign

def Field.ty (field : Field) : MemberType where
  base :=
    match field.pointee with
    | none => field.typespec
    | some (params, variadic) => .ptr (.func field.typespec params variadic variadic)
  dims := field.dims

/-- A statement of a body: `$$ = v;` or a declarator. -/
inductive Item where
  | cursor (v : Word)
  | field (field : Field)

/-- `alignAll` is the hint in front of the declaration; `body` is missing in a forward
declaration, and the name of the parent where the header has none. -/
structure ClassDecl where
  name : String
  isUnion : Bool
  alignAll : Option HintAlign
  body : Option (Option String × List Item)

structure Layout where
  off : BitVec 32
  align : Align
  layoutAlign : Align
  neg : BitVec 32
  unionBase : BitVec 32
  aligned : Bool
  members : List Member

def alignUp (n : BitVec 32) (a : Align) : BitVec 32 := (n + a.bytes - 1) &&& -a.bytes

def isPtrTy : Ty → Bool
  | .ptr _ => true
  | _ => false

def hintedType (ty : MemberType) (bits : Option Nat) : Except String Unit :=
  match bits with
  | none => .ok ()
  | some bits =>
    match ty.dims, ty.base with
    | [], .int size _ =>
      if bits > size.bytes * 8 then
        .error "@bits exceeds the declared integer width"
      else
        .ok ()
    | _, _ => .error "@bits requires an integer declaration"

def checkField (classes : Classes) (field : Field) : Except String Unit := do
  if field.inlineHint then
    throw "inline hints apply only to function declarations"
  if field.nonnullHint && !isPtrTy field.typespec then
    throw "@nonnull requires a pointer declaration"
  match field.ty.base with
  | .cls name =>
    match findClass classes name with
    | none => throw "unknown type"
    | some cls =>
      if field.dims = [] ∧ cls.size = 0 then throw "member of incomplete class type"
  | _ => pure ()
  hintedType field.ty field.bitsHint

/-- `policy`: the hint of the declaration, or that of the whole class. -/
def policy (alignHints : Bool) (alignAll : Option HintAlign) (field : Field) : Option HintAlign :=
  if alignHints && field.alignHint.isSome then field.alignHint else alignAll

def requested (classes : Classes) (field : Field) : Option HintAlign → Option Align
  | none => none
  | some .natural => some (typeAlign classes field.ty.base)
  | some (.to align) => some align

def position (start : BitVec 32) : Option Align → BitVec 32
  | none => start
  | some a => alignUp start a

def layoutField (classes : Classes) (alignHints isUnion : Bool) (alignAll : Option HintAlign)
    (field : Field) (l : Layout) : Layout :=
  let a := requested classes field (policy alignHints alignAll field)
  let pos := position (if isUnion then l.unionBase else l.off) a
  let last := pos + memberSize classes field.ty
  { l with
    off := if isUnion then (if last.toInt > l.off.toInt then last else l.off) else last
    align := l.align.larger (typeAlign classes field.ty.base)
    layoutAlign := (a.map l.layoutAlign.larger).getD l.layoutAlign
    aligned := l.aligned || (alignHints && field.alignHint.isSome)
    members := l.members ++ [⟨field.name, field.ty, pos⟩] }

def layoutCursor (isUnion : Bool) (v : Word) (l : Layout) : Layout :=
  let v := v.setWidth 32
  { l with
    neg := if (-v).toInt > l.neg.toInt then -v else l.neg
    unionBase := if isUnion then v else l.unionBase
    off := if isUnion then l.off else v }

def layoutItem (classes : Classes) (alignHints isUnion : Bool) (alignAll : Option HintAlign)
    (l : Layout) : Item → Except String Layout
  | .cursor v => .ok (layoutCursor isUnion v l)
  | .field field => do
    checkField classes field
    pure (layoutField classes alignHints isUnion alignAll field l)

def startLayout (parent : Option ClassType) (alignAll : Option HintAlign) : Layout where
  off := (parent.map ClassType.size).getD 0
  align := (parent.map ClassType.align).getD .one
  layoutAlign := (parent.map ClassType.align).getD .one
  neg := 0
  unionBase := 0
  aligned := alignAll.isSome
  members := []

def finish (l : Layout) (cls : ClassType) : ClassType :=
  { cls with
    members := l.members
    align := if l.aligned then l.layoutAlign else l.align
    size := if l.aligned then alignUp (l.off + l.neg) l.layoutAlign else l.off + l.neg }

def register (classes : Classes) (name : String) (isUnion : Bool) : Classes :=
  if (findClass classes name).isSome then classes
  else ⟨name, 0, .one, isUnion, none, []⟩ :: classes

def parseHeader (classes : Classes) (d : ClassDecl) (parent : Option String) :
    Except String Classes :=
  let classes := register classes d.name d.isUnion
  match parent with
  | none => .ok classes
  | some name =>
    match findClass classes name with
    | none => .error "unknown parent class"
    | some _ => .ok (setClass classes d.name fun cls => { cls with parent := some name })

def parentOf (classes : Classes) (name : String) : Option ClassType := do
  let cls ← findClass classes name
  findClass classes (← cls.parent)

def alignAllOf (alignHints : Bool) (d : ClassDecl) : Option HintAlign :=
  if alignHints then d.alignAll else none

def parseBody (alignHints : Bool) (classes : Classes) (d : ClassDecl) (items : List Item) :
    Except String Classes := do
  let alignAll := alignAllOf alignHints d
  let l ← items.foldlM (layoutItem classes alignHints d.isUnion alignAll)
    (startLayout (parentOf classes d.name) alignAll)
  pure (setClass classes d.name (finish l))

def parseClass (alignHints : Bool) (classes : Classes) (d : ClassDecl) : Except String Classes :=
  match d.body with
  | none => .ok (register classes d.name d.isUnion)
  | some (parent, items) => do
    let classes ← parseHeader classes d parent
    parseBody alignHints classes d items

def parseClasses (alignHints : Bool) (decls : List ClassDecl) : Except String Classes :=
  decls.foldlM (parseClass alignHints) []

/-- `find_member`, with a bound on its rounds; `none` when they do not suffice. -/
def findMember (classes : Classes) (name : String) : Nat → Option String → Option (Option Member)
  | 0, _ => none
  | _ + 1, none => some none
  | rounds + 1, some cls =>
    match findClass classes cls with
    | none => some none
    | some cls =>
      match cls.members.find? (·.name = name) with
      | some m => some (some m)
      | none => findMember classes name rounds cls.parent

/-! ## Finding classes -/

section

variable {classes : Classes} {name : String}

theorem findClass_name {cls : ClassType} (found : findClass classes name = some cls) :
    cls.name = name := by
  have isName := List.find?_some found
  simpa using isName

theorem findClass_set (change : ClassType → ClassType) (keeps : ∀ cls, (change cls).name = cls.name)
    (other : String) : findClass (setClass classes name change) other =
      (findClass classes other).map fun cls => if other = name then change cls else cls := by
  unfold findClass setClass
  rw [List.find?_map]
  have same : ((fun cls => decide (cls.name = other)) ∘ fun cls : ClassType =>
      if cls.name = name then change cls else cls) = fun cls => decide (cls.name = other) := by
    funext cls
    dsimp only [Function.comp_apply]
    split
    · rw [keeps]
    · rfl
  rw [same]
  cases found : classes.find? fun cls => decide (cls.name = other) with
  | none => rfl
  | some cls =>
    have isName : cls.name = other := findClass_name found
    simp only [Option.map_some, isName]

theorem findClass_register (isUnion : Bool) (other : String) :
    findClass (register classes name isUnion) other =
      if other = name ∧ findClass classes name = none then some ⟨name, 0, .one, isUnion, none, []⟩
      else findClass classes other := by
  unfold register
  cases found : findClass classes name with
  | some cls => simp
  | none =>
    by_cases same : other = name
    · rw [same]
      simp [findClass]
    · have differs : ¬name = other := fun eq => same eq.symm
      simp [findClass, same, differs]

end

/-! ## Parents -/

def Parent (classes : Classes) (child parent : String) : Prop :=
  ∃ cls, findClass classes child = some cls ∧ cls.parent = some parent

inductive Rooted (classes : Classes) : String → Prop where
  | root (cls : String) (last : ∀ parent, ¬Parent classes cls parent) : Rooted classes cls
  | link (cls parent : String) (isParent : Parent classes cls parent)
      (rooted : Rooted classes parent) : Rooted classes cls

/-- Every chain of parents ends, and every look-up of a member with it. -/
structure ChainsEnd (classes : Classes) : Prop where
  rooted : ∀ cls, Rooted classes cls
  lookups : ∀ cls name, ∃ rounds, findMember classes name rounds (some cls) ≠ none

/-- The header names as its parent a class whose parents lead to the class that it declares, or
that class itself. -/
def LinksBack (classes : Classes) (d : ClassDecl) : Prop :=
  ∃ parent items, d.body = some (some parent, items) ∧
    Relation.ReflTransGen (Parent classes) parent d.name

section

variable {classes : Classes} {cls parent : String}

theorem Parent.unique {other : String} (isParent : Parent classes cls parent)
    (isOther : Parent classes cls other) : parent = other := by
  obtain ⟨type, found, link⟩ := isParent
  obtain ⟨type', found', link'⟩ := isOther
  rw [found] at found'
  injection found' with same
  rw [← same, link] at link'
  injection link'

theorem Rooted.noCycle (rooted : Rooted classes cls) :
    ¬Relation.TransGen (Parent classes) cls cls := by
  induction rooted with
  | root cls last =>
    intro cycle
    obtain ⟨parent, isParent, _⟩ := Relation.TransGen.head'_iff.mp cycle
    exact last parent isParent
  | link cls parent isParent _ ih =>
    intro cycle
    obtain ⟨next, isNext, back⟩ := Relation.TransGen.head'_iff.mp cycle
    rw [← isParent.unique isNext] at back
    exact ih (Relation.TransGen.tail'_iff.mpr ⟨cls, back, isParent⟩)

theorem Rooted.lookup (rooted : Rooted classes cls) (name : String) :
    ∃ rounds, findMember classes name rounds (some cls) ≠ none := by
  induction rooted with
  | root cls last =>
    refine ⟨2, ?_⟩
    cases found : findClass classes cls with
    | none => simp [findMember, found]
    | some type =>
      have noParent : type.parent = none := by
        cases link : type.parent with
        | none => rfl
        | some parent => exact absurd ⟨type, found, link⟩ (last parent)
      unfold findMember
      simp only [found, noParent]
      cases type.members.find? (·.name = name) <;> simp [findMember]
  | link cls parent isParent _ ih =>
    obtain ⟨rounds, ends⟩ := ih
    obtain ⟨type, found, link⟩ := isParent
    refine ⟨rounds + 1, ?_⟩
    unfold findMember
    simp only [found, link]
    cases type.members.find? (·.name = name) with
    | none => exact ends
    | some m => simp

end

/-! ## What a declaration does to the links -/

theorem parent_register (classes : Classes) (name : String) (isUnion : Bool) :
    Parent (register classes name isUnion) = Parent classes := by
  funext child parent
  unfold Parent
  rw [findClass_register]
  split
  · next fresh =>
    obtain ⟨rfl, isNew⟩ := fresh
    simp [isNew]
  · rfl

theorem parent_finish (classes : Classes) (name : String) (l : Layout) :
    Parent (setClass classes name (finish l)) = Parent classes := by
  funext child parent
  unfold Parent
  rw [findClass_set (finish l) fun _ => rfl]
  cases findClass classes child with
  | none => simp
  | some cls =>
    simp only [Option.map_some, Option.some.injEq, exists_eq_left']
    split
    · rfl
    · rfl

theorem parent_set (classes : Classes) {name : String} (known : (findClass classes name).isSome)
    (parent child other : String) :
    Parent (setClass classes name fun cls => { cls with parent := some parent }) child other ↔
      if child = name then other = parent else Parent classes child other := by
  unfold Parent
  rw [findClass_set (fun cls => { cls with parent := some parent }) fun _ => rfl]
  by_cases same : child = name
  · obtain ⟨cls, found⟩ := Option.isSome_iff_exists.mp known
    rw [if_pos same, same, found]
    simp [eq_comm]
  · rw [if_neg same]
    cases findClass classes child with
    | none => simp
    | some cls => simp [same]

theorem parseClass_parent {alignHints : Bool} {classes after : Classes} {d : ClassDecl}
    (accepted : parseClass alignHints classes d = .ok after) :
    ((∀ parent items, d.body ≠ some (some parent, items)) ∧ Parent after = Parent classes) ∨
    ∃ parent items, d.body = some (some parent, items) ∧
      ∀ child other, Parent after child other ↔
        if child = d.name then other = parent else Parent classes child other := by
  unfold parseClass at accepted
  cases isBody : d.body with
  | none =>
    rw [isBody] at accepted
    injection accepted with same
    left
    constructor
    · intro _ _ absent
      cases absent
    · rw [← same, parent_register]
  | some body =>
    obtain ⟨parent, items⟩ := body
    rw [isBody] at accepted
    obtain ⟨headed, header, body⟩ := bind_ok_iff.mp accepted
    obtain ⟨l, _, ends⟩ := bind_ok_iff.mp body
    injection ends with ends
    unfold parseHeader at header
    cases parent with
    | none =>
      left
      injection header with header
      constructor
      · intro _ _ absent
        cases absent
      · rw [← ends, parent_finish, ← header, parent_register]
    | some parent =>
      right
      refine ⟨parent, items, rfl, ?_⟩
      dsimp only at header
      split at header
      · cases header
      injection header with header
      intro child other
      have known : (findClass (register classes d.name d.isUnion) d.name).isSome := by
        rw [findClass_register]
        cases findClass classes d.name with
        | none => simp
        | some cls => simp
      rw [← ends, parent_finish, ← header, parent_set _ known, parent_register]

/-- One new link keeps the chains finite just when its target does not lead back. -/
theorem rooted_link {classes after : Classes} {name parent : String}
    (rooted : ∀ cls, Rooted classes cls)
    (links : ∀ child other, Parent after child other ↔
      if child = name then other = parent else Parent classes child other) :
    (∀ cls, Rooted after cls) ↔ ¬Relation.ReflTransGen (Parent classes) parent name := by
  have isLink : Parent after name parent := by
    rw [links, if_pos rfl]
  have kept : ∀ {child other}, child ≠ name → (Parent after child other ↔ Parent classes child other) := by
    intro child other differs
    rw [links, if_neg differs]
  have lift : ∀ start, Relation.ReflTransGen (Parent classes) start name →
      Relation.ReflTransGen (Parent after) start name := by
    intro start back
    induction back using Relation.ReflTransGen.head_induction_on with
    | refl => exact .refl
    | @head child other isParent _ ih =>
      by_cases same : child = name
      · rw [same]
      · exact .head ((kept same).mpr isParent) ih
  constructor
  · intro all back
    have after_back := lift parent back
    exact (all name).noCycle (Relation.TransGen.head'_iff.mpr ⟨parent, isLink, after_back⟩)
  intro apart
  have away : ∀ cls, ¬Relation.ReflTransGen (Parent classes) cls name → Rooted after cls := by
    intro cls away
    induction rooted cls with
    | root cls last =>
      apply Rooted.root
      intro other isParent
      have differs : cls ≠ name := fun same => away (same ▸ .refl)
      exact last other ((kept differs).mp isParent)
    | link cls other isParent _ ih =>
      have differs : cls ≠ name := fun same => away (same ▸ .refl)
      exact .link cls other ((kept differs).mpr isParent) (ih fun back => away (.head isParent back))
  have atName : Rooted after name := .link name parent isLink (away parent apart)
  intro cls
  induction rooted cls with
  | root cls last =>
    by_cases same : cls = name
    · rw [same]
      exact atName
    · exact .root cls fun other isParent => last other ((kept same).mp isParent)
  | link cls other isParent _ ih =>
    by_cases same : cls = name
    · rw [same]
      exact atName
    · exact .link cls other ((kept same).mpr isParent) ih

/-- A declaration keeps the chains finite just when its header does not link back. -/
theorem parseClass_rooted {alignHints : Bool} {classes after : Classes} {d : ClassDecl}
    (accepted : parseClass alignHints classes d = .ok after)
    (rooted : ∀ cls, Rooted classes cls) : (∀ cls, Rooted after cls) ↔ ¬LinksBack classes d := by
  rcases parseClass_parent accepted with unchanged | linked
  · obtain ⟨noParent, same⟩ := unchanged
    have stays : ∀ cls, Rooted after cls := by
      intro cls
      induction rooted cls with
      | root cls last => exact .root cls (same ▸ last)
      | link cls parent isParent _ ih => exact .link cls parent (same ▸ isParent) ih
    refine iff_of_true stays ?_
    intro back
    obtain ⟨parent, items, isBody, _⟩ := back
    exact noParent parent items isBody
  · obtain ⟨parent, items, isBody, links⟩ := linked
    rw [rooted_link rooted links]
    apply not_congr
    constructor
    · intro back
      exact ⟨parent, items, isBody, back⟩
    intro back
    obtain ⟨parent', items', isBody', back⟩ := back
    rw [isBody] at isBody'
    injection isBody' with same
    injection same with same
    injection same with same
    rw [same]
    exact back

theorem rooted_nil (cls : String) : Rooted [] cls := by
  apply Rooted.root
  intro parent isParent
  obtain ⟨type, found, _⟩ := isParent
  cases found

/-- In every state of an accepted program all chains end just when no header links back. -/
theorem parents_end (alignHints : Bool) (decls : List ClassDecl) (classes : Classes)
    (accepted : parseClasses alignHints decls = .ok classes) :
    (∀ front back state, decls = front ++ back → parseClasses alignHints front = .ok state →
      ChainsEnd state) ↔
    ∀ front d back state, decls = front ++ d :: back → parseClasses alignHints front = .ok state →
      ¬LinksBack state d := by
  have steps : ∀ front d back state, decls = front ++ d :: back →
      parseClasses alignHints front = .ok state →
      ∃ next, parseClass alignHints state d = .ok next ∧
        parseClasses alignHints (front ++ [d]) = .ok next := by
    intro front d back state split isState
    rw [split] at accepted
    obtain ⟨mid, isMid, rest⟩ := foldlM_append_ok.mp accepted
    obtain ⟨next, step, _⟩ := foldlM_cons_ok.mp rest
    have same : Except.ok mid = Except.ok state := isMid.symm.trans isState
    injection same with same
    rw [same] at step
    exact ⟨next, step, foldlM_concat_ok.mpr ⟨state, isState, step⟩⟩
  constructor
  · intro all front d back state split isState
    obtain ⟨next, step, isNext⟩ := steps front d back state split isState
    have before := all front (d :: back) state split isState
    have after := all (front ++ [d]) back next (by simpa using split) isNext
    exact (parseClass_rooted step before.rooted).mp after.rooted
  · intro none_back front
    induction front using List.reverseRecOn with
    | nil =>
      intro back state _ isState
      injection isState with same
      rw [← same]
      exact ⟨rooted_nil, fun cls name => (rooted_nil cls).lookup name⟩
    | append_singleton front d ih =>
      intro back state split isState
      have split' : decls = front ++ d :: back := by simpa using split
      obtain ⟨before, isBefore, step⟩ := foldlM_concat_ok.mp isState
      have rooted := (parseClass_rooted step (ih (d :: back) before split' isBefore).rooted).mpr
        (none_back front d back before split' isBefore)
      exact ⟨rooted, fun cls name => (rooted cls).lookup name⟩

def smallClass (name : String) (parent : Option String) : ClassDecl where
  name := name
  isUnion := false
  alignAll := none
  body := some (parent, [.field ⟨"x", tyI64, none, [], false, none, false, none⟩])

/-- A class and a class with the first for its parent. -/
theorem parents_end_two :
    ∃ classes, parseClasses true [smallClass "A" none, smallClass "B" (some "A")] = .ok classes ∧
      ((∀ front back state, [smallClass "A" none, smallClass "B" (some "A")] = front ++ back →
        parseClasses true front = .ok state → ChainsEnd state) ↔
      ∀ front d back state, [smallClass "A" none, smallClass "B" (some "A")] = front ++ d :: back →
        parseClasses true front = .ok state → ¬LinksBack state d) :=
  ⟨_, rfl, parents_end true _ _ rfl⟩

/-- `class A : A { I64 x; };` is accepted, and `A` is its own parent. -/
theorem self_parent_accepted :
    ¬∀ alignHints decls classes, parseClasses alignHints decls = .ok classes → ChainsEnd classes := by
  intro all
  have accepted : ∃ classes, parseClasses true [smallClass "A" (some "A")] = .ok classes ∧
      Parent classes "A" "A" := ⟨_, rfl, _, rfl, rfl⟩
  obtain ⟨classes, accepted, isParent⟩ := accepted
  exact ((all true _ classes accepted).rooted "A").noCycle (.single isParent)

end Aholyc.Parse
