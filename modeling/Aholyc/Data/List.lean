import Mathlib.Data.List.Induction
import Mathlib.Data.List.Nodup
import Mathlib.Logic.Function.Basic
import Mathlib.Tactic.Common

/-!
# The doubly linked list (lib/data/list.hc)

Nodes lie in a heap; a pointer is an address, and NULL is 0. Access to what is
no node has no result. A list is well formed if its nodes are linked in both
directions, and then it stands for the sequence of their values.
-/

namespace Aholyc.Linked

structure CListNode where
  previous : Nat
  next : Nat
  value : Int
  deriving DecidableEq, Repr

structure CList where
  head : Nat
  tail : Nat
  count : Int
  deriving DecidableEq, Repr

abbrev Heap := Nat → Option CListNode

structure ListState where
  heap : Heap
  list : CList

/-! ## The source -/

def listInit (heap : Heap) : ListState := ⟨heap, ⟨0, 0, 0⟩⟩

def setNext (heap : Heap) (node next : Nat) : Option Heap :=
  (heap node).map fun found => Function.update heap node (some { found with next := next })

def setPrevious (heap : Heap) (node previous : Nat) : Option Heap :=
  (heap node).map fun found => Function.update heap node (some { found with previous := previous })

/-- `if (previous) previous->next = node; else list->head = node;` -/
def linkPrevious (state : ListState) (previous node : Nat) : Option ListState :=
  if previous ≠ 0 then
    (setNext state.heap previous node).map fun heap => { state with heap := heap }
  else some { state with list := { state.list with head := node } }

/-- `if (next) next->previous = node; else list->tail = node;` -/
def linkNext (state : ListState) (next node : Nat) : Option ListState :=
  if next ≠ 0 then
    (setPrevious state.heap next node).map fun heap => { state with heap := heap }
  else some { state with list := { state.list with tail := node } }

def listNodeNew (heap : Heap) (node : Nat) (value : Int) : Heap :=
  Function.update heap node (some ⟨0, 0, value⟩)

def CList.add (list : CList) (amount : Int) : CList := { list with count := list.count + amount }

def nextOf (heap : Heap) (list : CList) (position : Nat) : Option Nat :=
  if position ≠ 0 then (heap position).map CListNode.next else some list.head

def previousOf (heap : Heap) (list : CList) (position : Nat) : Option Nat :=
  if position ≠ 0 then (heap position).map CListNode.previous else some list.tail

def listInsertAfter (state : ListState) (node position : Nat) (value : Int) :
    Option ListState := do
  let heap := listNodeNew state.heap node value
  let heap ← setPrevious heap node position
  let next ← nextOf heap state.list position
  let heap ← setNext heap node next
  let state ← linkPrevious { state with heap := heap } position node
  let state ← linkNext state next node
  some { state with list := state.list.add 1 }

def listInsertBefore (state : ListState) (node position : Nat) (value : Int) :
    Option ListState := do
  let heap := listNodeNew state.heap node value
  let heap ← setNext heap node position
  let previous ← previousOf heap state.list position
  let heap ← setPrevious heap node previous
  let state ← linkNext { state with heap := heap } position node
  let state ← linkPrevious state previous node
  some { state with list := state.list.add 1 }

def listPushFront (state : ListState) (node : Nat) (value : Int) : Option ListState :=
  listInsertAfter state node 0 value

def listPushBack (state : ListState) (node : Nat) (value : Int) : Option ListState :=
  listInsertBefore state node 0 value

def findLoop (heap : Heap) (value : Int) : Nat → Nat → Option Nat
  | 0, _ => none
  | fuel + 1, node =>
    if node = 0 then some 0
    else (heap node).bind fun found =>
      if found.value = value then some node else findLoop heap value fuel found.next

def listFind (state : ListState) (fuel : Nat) (value : Int) : Option Nat :=
  findLoop state.heap value fuel state.list.head

def listDetach (state : ListState) (node : Nat) : Option ListState :=
  if node = 0 then some state
  else do
    let found ← state.heap node
    let state ← linkPrevious state found.previous found.next
    let state ← linkNext state found.next found.previous
    let heap ← setPrevious state.heap node 0
    let heap ← setNext heap node 0
    some ⟨heap, state.list.add (-1)⟩

def free (heap : Heap) (node : Nat) : Option Heap :=
  (heap node).map fun _ => Function.update heap node none

def listErase (state : ListState) (node : Nat) : Option (ListState × Nat) :=
  if node = 0 then some (state, 0)
  else do
    let found ← state.heap node
    let state ← listDetach state node
    let heap ← free state.heap node
    some ({ state with heap := heap }, found.next)

def listPopFront (state : ListState) : Option (ListState × Option Int) :=
  if state.list.head = 0 then some (state, none)
  else do
    let found ← state.heap state.list.head
    let (state, _) ← listErase state state.list.head
    some (state, some found.value)

def listPopBack (state : ListState) : Option (ListState × Option Int) :=
  if state.list.tail = 0 then some (state, none)
  else do
    let found ← state.heap state.list.tail
    let (state, _) ← listErase state state.list.tail
    some (state, some found.value)

def clearLoop : Nat → Heap → Nat → Option Heap
  | 0, _, _ => none
  | fuel + 1, heap, node =>
    if node = 0 then some heap
    else do
      let found ← heap node
      let heap ← free heap node
      clearLoop fuel heap found.next

def listClear (state : ListState) (fuel : Nat) : Option ListState :=
  (clearLoop fuel state.heap state.list.head).map listInit

/-- The last node and the count, or `none` inside where a link is wrong. -/
def forwardLoop (heap : Heap) : Nat → Nat → Nat → Int → Option (Option (Nat × Int))
  | 0, _, _, _ => none
  | fuel + 1, node, previous, count =>
    if node = 0 then some (some (previous, count))
    else (heap node).bind fun found =>
      if found.previous ≠ previous then some none
      else forwardLoop heap fuel found.next node (count + 1)

def backwardLoop (heap : Heap) : Nat → Nat → Nat → Int → Option (Option (Nat × Int))
  | 0, _, _, _ => none
  | fuel + 1, node, next, count =>
    if node = 0 then some (some (next, count))
    else (heap node).bind fun found =>
      if found.next ≠ next then some none
      else backwardLoop heap fuel found.previous node (count + 1)

def listIsValid (state : ListState) (fuel : Nat) : Option Bool :=
  let list := state.list
  if list.head = 0 then some (list.tail == 0 && list.count == 0)
  else if list.tail = 0 then some false
  else do
    let head ← state.heap list.head
    let tail ← if head.previous = 0 then (state.heap list.tail).map some else some none
    match tail with
    | none => some false
    | some tail =>
      if tail.next ≠ 0 then some false
      else
        match ← forwardLoop state.heap fuel list.head 0 0 with
        | none => some false
        | some (previous, forwardCount) =>
          if previous ≠ list.tail ∨ forwardCount ≠ list.count then some false
          else
            match ← backwardLoop state.heap fuel list.tail 0 0 with
            | none => some false
            | some (next, backwardCount) =>
              some (next == list.head && backwardCount == list.count)

/-! ## Well-formed lists -/

abbrev Node := Nat × Int

/-- The address of the first node, where `next` comes behind the nodes. -/
def first : List Node → Nat → Nat
  | [], next => next
  | (node, _) :: _, _ => node

/-- The address of the last node, where `previous` comes in front of the
nodes. -/
def last : Nat → List Node → Nat
  | previous, [] => previous
  | _, (node, _) :: rest => last node rest

/-- The nodes are linked in both directions, from `previous` to `next`. -/
def Links (heap : Heap) : Nat → List Node → Nat → Prop
  | _, [], _ => True
  | previous, (node, value) :: rest, next =>
    node ≠ 0 ∧ heap node = some ⟨previous, first rest next, value⟩ ∧ Links heap node rest next

def addresses (nodes : List Node) : List Nat := nodes.map Prod.fst

structure WellFormed (state : ListState) (nodes : List Node) : Prop where
  head : state.list.head = first nodes 0
  tail : state.list.tail = last 0 nodes
  count : state.list.count = nodes.length
  links : Links state.heap 0 nodes 0
  nodup : (addresses nodes).Nodup

theorem first_append (front back : List Node) (next : Nat) :
    first (front ++ back) next = first front (first back next) := by
  cases front <;> rfl

theorem last_append (previous : Nat) (front back : List Node) :
    last previous (front ++ back) = last (last previous front) back := by
  induction front generalizing previous with
  | nil => rfl
  | cons node rest ih => exact ih node.1

variable {previous next position : Nat}

theorem links_append {heap : Heap} {front back : List Node} :
    Links heap previous (front ++ back) next ↔
      Links heap previous front (first back next) ∧ Links heap (last previous front) back next := by
  induction front generalizing previous with
  | nil => simp only [List.nil_append, Links, last, true_and]
  | cons node rest ih =>
    obtain ⟨node, value⟩ := node
    simp only [List.cons_append, Links, last, ih, first_append, and_assoc]

theorem addresses_append (front back : List Node) :
    addresses (front ++ back) = addresses front ++ addresses back :=
  List.map_append

theorem last_mem {front : List Node} (notEmpty : front ≠ []) (previous : Nat) :
    last previous front ∈ addresses front := by
  induction front generalizing previous with
  | nil => exact absurd rfl notEmpty
  | cons node rest ih =>
    cases rest with
    | nil => exact List.mem_cons_self
    | cons other rest => exact List.mem_cons_of_mem _ (ih (List.cons_ne_nil other rest) node.1)

theorem Links.notNull {heap : Heap} {nodes : List Node} (links : Links heap previous nodes next)
    {node : Nat} (isIn : node ∈ addresses nodes) : node ≠ 0 ∧ (heap node).isSome = true := by
  induction nodes generalizing previous with
  | nil => cases isIn
  | cons other rest ih =>
    obtain ⟨other, value⟩ := other
    obtain ⟨notNull, found, others⟩ := links
    cases List.mem_cons.mp isIn with
    | inl same =>
      rw [same]
      exact ⟨notNull, by rw [found]; rfl⟩
    | inr isRest => exact ih others isRest

theorem Links.frame {heap heap' : Heap} {nodes : List Node} (links : Links heap previous nodes next)
    (same : ∀ node ∈ addresses nodes, heap' node = heap node) :
    Links heap' previous nodes next := by
  induction nodes generalizing previous with
  | nil => trivial
  | cons node rest ih =>
    obtain ⟨node, value⟩ := node
    obtain ⟨notNull, found, others⟩ := links
    refine ⟨notNull, ?_, ih others fun other isRest => same other (List.mem_cons_of_mem _ isRest)⟩
    rw [same node List.mem_cons_self, found]

/-! ## Two halves of a list -/

/-- The list with a gap in it: what the front half takes for the next node is
`behind`, and what the back half takes for the one in front of it is
`before`. -/
structure Halves (state : ListState) (front back : List Node) (behind before : Nat) : Prop where
  head : state.list.head = first front behind
  tail : state.list.tail = last before back
  linksFront : Links state.heap 0 front behind
  linksBack : Links state.heap before back 0
  nodup : (addresses (front ++ back)).Nodup

section

variable {state : ListState} {front back : List Node} {behind before : Nat}

theorem WellFormed.halves (wellFormed : WellFormed state (front ++ back)) :
    Halves state front back (first back 0) (last 0 front) := by
  have links := links_append.mp wellFormed.links
  refine ⟨?_, ?_, links.1, links.2, wellFormed.nodup⟩
  · rw [wellFormed.head, first_append]
  · rw [wellFormed.tail, last_append]

theorem Halves.frame (halves : Halves state front back behind before) {heap : Heap}
    (same : ∀ node ∈ addresses (front ++ back), heap node = state.heap node) :
    Halves { state with heap := heap } front back behind before := by
  rw [addresses_append] at same
  exact ⟨halves.head, halves.tail,
    halves.linksFront.frame fun node isIn => same node (List.mem_append_left _ isIn),
    halves.linksBack.frame fun node isIn => same node (List.mem_append_right _ isIn), halves.nodup⟩

theorem Halves.linkPrevious (halves : Halves state front back behind before) (node : Nat) :
    ∃ after, linkPrevious state (last 0 front) node = some after ∧
      Halves after front back node before ∧ after.list.count = state.list.count ∧
      ∀ other, other ≠ last 0 front → after.heap other = state.heap other := by
  obtain ⟨head, tail, isFront, isBack, nodup⟩ := halves
  cases front.eq_nil_or_concat' with
  | inl isEmpty =>
    subst isEmpty
    exact ⟨_, rfl, ⟨rfl, tail, trivial, isBack, nodup⟩, rfl, fun _ _ => rfl⟩
  | inr split =>
    obtain ⟨rest, ⟨final, value⟩, rfl⟩ := split
    have isLast : last 0 (rest ++ [(final, value)]) = final := last_append 0 rest _
    have links := links_append.mp isFront
    obtain ⟨notNull, found, _⟩ := links.2
    have outside : ∀ other ∈ addresses (rest ++ back), other ≠ final := by
      simp only [addresses_append, List.append_assoc] at nodup
      have parts := List.nodup_append.mp nodup
      have parts' := List.nodup_append.mp parts.2.1
      intro other isIn
      rw [addresses_append] at isIn
      cases List.mem_append.mp isIn with
      | inl isRest =>
        exact parts.2.2 other isRest final (List.mem_append_left _ List.mem_cons_self)
      | inr inBack => exact (parts'.2.2 final List.mem_cons_self other inBack).symm
    have same (other : Nat) (differs : other ≠ final) :
        Function.update state.heap final (some ⟨last 0 rest, node, value⟩) other =
          state.heap other := Function.update_of_ne differs _ _
    rw [isLast]
    refine ⟨⟨Function.update state.heap final (some ⟨last 0 rest, node, value⟩), state.list⟩, ?_,
      ⟨?_, tail, ?_, ?_, nodup⟩, rfl, same⟩
    · unfold Linked.linkPrevious setNext
      rw [if_pos notNull, found]
      rfl
    · rw [head, first_append, first_append]
      rfl
    · rw [links_append]
      refine ⟨?_, notNull, ?_, trivial⟩
      · apply links.1.frame
        intro other isIn
        apply same
        apply outside
        rw [addresses_append]
        exact List.mem_append_left _ isIn
      · exact Function.update_self _ _ _
    · apply isBack.frame
      intro other isIn
      apply same
      apply outside
      rw [addresses_append]
      exact List.mem_append_right _ isIn

theorem Halves.linkNext (halves : Halves state front back behind before) (node : Nat) :
    ∃ after, linkNext state (first back 0) node = some after ∧
      Halves after front back behind node ∧ after.list.count = state.list.count ∧
      ∀ other, other ≠ first back 0 → after.heap other = state.heap other := by
  obtain ⟨head, tail, isFront, isBack, nodup⟩ := halves
  cases back with
  | nil => exact ⟨_, rfl, ⟨head, rfl, isFront, trivial, nodup⟩, rfl, fun _ _ => rfl⟩
  | cons start rest =>
    obtain ⟨start, value⟩ := start
    obtain ⟨notNull, found, others⟩ := isBack
    have parts := List.nodup_append.mp (addresses_append front _ ▸ nodup)
    have inner := List.nodup_cons.mp parts.2.1
    have same (other : Nat) (differs : other ≠ start) :
        Function.update state.heap start (some ⟨node, first rest 0, value⟩) other =
          state.heap other := Function.update_of_ne differs _ _
    refine ⟨⟨Function.update state.heap start (some ⟨node, first rest 0, value⟩), state.list⟩, ?_,
      ⟨head, tail, ?_, ⟨notNull, ?_, ?_⟩, nodup⟩, rfl, same⟩
    · show Linked.linkNext state start node = _
      unfold Linked.linkNext setPrevious
      rw [if_pos notNull, found]
      rfl
    · apply isFront.frame
      intro other isIn
      apply same
      exact parts.2.2 other isIn start List.mem_cons_self
    · exact Function.update_self _ _ _
    · apply others.frame
      intro other isIn
      apply same
      intro isStart
      rw [isStart] at isIn
      exact inner.1 isIn

theorem Halves.fill {node : Nat} (halves : Halves state front back node node) {value : Int}
    (notNull : node ≠ 0) (found : state.heap node = some ⟨last 0 front, first back 0, value⟩)
    (fresh : node ∉ addresses (front ++ back))
    (count : state.list.count = ((front ++ back).length : Nat)) :
    WellFormed { state with list := state.list.add 1 } (front ++ (node, value) :: back) := by
  refine ⟨?_, ?_, ?_, ?_, ?_⟩
  · rw [first_append]
    exact halves.head
  · rw [last_append]
    exact halves.tail
  · show state.list.count + 1 = _
    rw [count, List.length_append, List.length_append, List.length_cons]
    omega
  · exact links_append.mpr ⟨halves.linksFront, notNull, found, halves.linksBack⟩
  · have nodup := halves.nodup
    rw [addresses_append] at nodup fresh ⊢
    exact List.nodup_middle.mpr (List.nodup_cons.mpr ⟨fresh, nodup⟩)

theorem Halves.close (halves : Halves state front back (first back 0) (last 0 front))
    (count : state.list.count = (front ++ back).length) : WellFormed state (front ++ back) := by
  refine ⟨?_, ?_, count, links_append.mpr ⟨halves.linksFront, halves.linksBack⟩, halves.nodup⟩
  · rw [first_append]
    exact halves.head
  · rw [last_append]
    exact halves.tail

end

/-! ## Inserting -/

section

variable {state : ListState} {front back : List Node} {node : Nat} {value : Int}

def Fresh (heap : Heap) (node : Nat) : Prop := node ≠ 0 ∧ heap node = none

theorem Fresh.notIn (fresh : Fresh state.heap node) {nodes : List Node}
    (wellFormed : WellFormed state nodes) : node ∉ addresses nodes := by
  intro isIn
  have isSome := (wellFormed.links.notNull isIn).2
  rw [fresh.2] at isSome
  cases isSome

/-- The new node, linked to its neighbours but not yet from them. -/
def newNode (heap : Heap) (node : Nat) (front back : List Node) (value : Int) : Heap :=
  Function.update heap node (some ⟨last 0 front, first back 0, value⟩)

/-- What comes behind the front half, as the insertion reads it. -/
theorem WellFormed.read_next (wellFormed : WellFormed state (front ++ back)) :
    nextOf state.heap state.list (last 0 front) = some (first back 0) := by
  have halves := wellFormed.halves
  unfold nextOf
  cases front.eq_nil_or_concat' with
  | inl isEmpty =>
    subst isEmpty
    exact congrArg some halves.head
  | inr split =>
    obtain ⟨rest, ⟨final, value⟩, rfl⟩ := split
    have links := links_append.mp halves.linksFront
    obtain ⟨notNull, found, _⟩ := links.2
    have isLast : last 0 (rest ++ [(final, value)]) = final := last_append 0 rest _
    rw [isLast, if_pos notNull, found]
    rfl

theorem WellFormed.read_previous (wellFormed : WellFormed state (front ++ back)) :
    previousOf state.heap state.list (first back 0) = some (last 0 front) := by
  have halves := wellFormed.halves
  unfold previousOf
  cases back with
  | nil => exact congrArg some halves.tail
  | cons start rest =>
    obtain ⟨notNull, found, _⟩ := halves.linksBack
    have isFirst : first (start :: rest) 0 = start.1 := rfl
    rw [isFirst, if_pos notNull, found]
    rfl

theorem nextOf_update (notNode : position ≠ 0 → position ≠ node) (new : Option CListNode) :
    nextOf (Function.update state.heap node new) state.list position =
      nextOf state.heap state.list position := by
  unfold nextOf
  split
  next notNull => rw [Function.update_of_ne (notNode notNull)]
  next => rfl

theorem previousOf_update (notNode : position ≠ 0 → position ≠ node) (new : Option CListNode) :
    previousOf (Function.update state.heap node new) state.list position =
      previousOf state.heap state.list position := by
  unfold previousOf
  split
  next notNull => rw [Function.update_of_ne (notNode notNull)]
  next => rfl

theorem last_notNode (fresh : Fresh state.heap node) (wellFormed : WellFormed state (front ++ back))
    (notNull : last 0 front ≠ 0) : last 0 front ≠ node := by
  intro same
  apply fresh.notIn wellFormed
  rw [← same, addresses_append]
  apply List.mem_append_left
  apply last_mem
  intro isEmpty
  rw [isEmpty] at notNull
  exact notNull rfl

theorem first_notNode (fresh : Fresh state.heap node)
    (wellFormed : WellFormed state (front ++ back)) (notNull : first back 0 ≠ 0) :
    first back 0 ≠ node := by
  intro same
  apply fresh.notIn wellFormed
  rw [← same, addresses_append]
  apply List.mem_append_right
  cases back with
  | nil => exact absurd rfl notNull
  | cons start rest => exact List.mem_cons_self

theorem listInsertAfter_eq (wellFormed : WellFormed state (front ++ back))
    (fresh : Fresh state.heap node) (value : Int) :
    listInsertAfter state node (last 0 front) value = (do
      let middle ← linkPrevious ⟨newNode state.heap node front back value, state.list⟩
        (last 0 front) node
      let after ← linkNext middle (first back 0) node
      some { after with list := after.list.add 1 }) := by
  have read := (nextOf_update (last_notNode fresh wellFormed)
    (some ⟨last 0 front, 0, value⟩)).trans wellFormed.read_next
  unfold listInsertAfter newNode
  simp only [listNodeNew, setPrevious, setNext, Function.update_self, Function.update_idem,
    Option.map_some, Option.bind_eq_bind, Option.bind_some]
  rw [read, Option.bind_some]

theorem listInsertBefore_eq (wellFormed : WellFormed state (front ++ back))
    (fresh : Fresh state.heap node) (value : Int) :
    listInsertBefore state node (first back 0) value = (do
      let middle ← linkNext ⟨newNode state.heap node front back value, state.list⟩
        (first back 0) node
      let after ← linkPrevious middle (last 0 front) node
      some { after with list := after.list.add 1 }) := by
  have read := (previousOf_update (first_notNode fresh wellFormed)
    (some ⟨0, first back 0, value⟩)).trans wellFormed.read_previous
  unfold listInsertBefore newNode
  simp only [listNodeNew, setPrevious, setNext, Function.update_self, Function.update_idem,
    Option.map_some, Option.bind_eq_bind, Option.bind_some]
  rw [read, Option.bind_some]

/-- What an insertion between the halves leaves behind. -/
structure Inserted (state after : ListState) (front back : List Node) (node : Nat) (value : Int) :
    Prop where
  wellFormed : WellFormed after (front ++ (node, value) :: back)
  same : ∀ other, other ≠ node → other ≠ last 0 front → other ≠ first back 0 →
    after.heap other = state.heap other

theorem WellFormed.newHalves (wellFormed : WellFormed state (front ++ back))
    (fresh : Fresh state.heap node) (value : Int) :
    Halves ⟨newNode state.heap node front back value, state.list⟩ front back (first back 0)
      (last 0 front) := by
  apply wellFormed.halves.frame
  intro other isIn
  apply Function.update_of_ne
  intro same
  rw [same] at isIn
  exact fresh.notIn wellFormed isIn

/-- Both neighbours are linked to the new node, in any order. -/
theorem Halves.inserted {after : ListState} (halves : Halves after front back node node)
    (wellFormed : WellFormed state (front ++ back)) (fresh : Fresh state.heap node)
    (count : after.list.count = state.list.count)
    (same : ∀ other, other ≠ last 0 front → other ≠ first back 0 →
      after.heap other = newNode state.heap node front back value other) :
    Inserted state { after with list := after.list.add 1 } front back node value := by
  constructor
  · apply halves.fill fresh.1 _ (fresh.notIn wellFormed)
    · rw [count, wellFormed.count]
    rw [same node]
    · exact Function.update_self _ _ _
    · intro isLast
      rcases Nat.eq_zero_or_pos (last 0 front) with isNull | positive
      · exact fresh.1 (isLast.trans isNull)
      · exact last_notNode fresh wellFormed (Nat.ne_of_gt positive) isLast.symm
    · intro isFirst
      rcases Nat.eq_zero_or_pos (first back 0) with isNull | positive
      · exact fresh.1 (isFirst.trans isNull)
      · exact first_notNode fresh wellFormed (Nat.ne_of_gt positive) isFirst.symm
  · intro other notNode notLast notFirst
    rw [same other notLast notFirst]
    exact Function.update_of_ne notNode _ _

theorem listInsertAfter_inserted (wellFormed : WellFormed state (front ++ back))
    (fresh : Fresh state.heap node) (value : Int) :
    ∃ after, listInsertAfter state node (last 0 front) value = some after ∧
      Inserted state after front back node value := by
  obtain ⟨middle, linked, halves, count, same⟩ :=
    (wellFormed.newHalves fresh value).linkPrevious node
  obtain ⟨after, linked', halves', count', same'⟩ := halves.linkNext node
  refine ⟨{ after with list := after.list.add 1 }, ?_,
    halves'.inserted wellFormed fresh (count'.trans count) ?_⟩
  · rw [listInsertAfter_eq wellFormed fresh]
    simp only [Option.bind_eq_bind, linked, Option.bind_some, linked']
  · intro other notLast notFirst
    rw [same' other notFirst, same other notLast]

theorem listInsertBefore_inserted (wellFormed : WellFormed state (front ++ back))
    (fresh : Fresh state.heap node) (value : Int) :
    ∃ after, listInsertBefore state node (first back 0) value = some after ∧
      Inserted state after front back node value := by
  obtain ⟨middle, linked, halves, count, same⟩ :=
    (wellFormed.newHalves fresh value).linkNext node
  obtain ⟨after, linked', halves', count', same'⟩ := halves.linkPrevious node
  refine ⟨{ after with list := after.list.add 1 }, ?_,
    halves'.inserted wellFormed fresh (count'.trans count) ?_⟩
  · rw [listInsertBefore_eq wellFormed fresh]
    simp only [Option.bind_eq_bind, linked, Option.bind_some, linked']
  · intro other notLast notFirst
    rw [same' other notLast, same other notFirst]

/-! ## Removing -/

/-- What is left behind when a node between the halves is taken out. -/
structure Removed (state after : ListState) (front back : List Node) (node : Nat) : Prop where
  wellFormed : WellFormed after (front ++ back)
  same : ∀ other, other ≠ node → other ≠ last 0 front → other ≠ first back 0 →
    after.heap other = state.heap other

theorem WellFormed.around (wellFormed : WellFormed state (front ++ (node, value) :: back)) :
    node ≠ 0 ∧ state.heap node = some ⟨last 0 front, first back 0, value⟩ ∧
      node ∉ addresses (front ++ back) ∧ Halves state front back node node := by
  have links := links_append.mp wellFormed.links
  obtain ⟨notNull, found, others⟩ := links.2
  have nodup := wellFormed.nodup
  have perm : addresses (front ++ (node, value) :: back) =
      addresses front ++ node :: addresses back := addresses_append _ _
  rw [perm, List.nodup_middle, ← addresses_append] at nodup
  have parts := List.nodup_cons.mp nodup
  refine ⟨notNull, found, parts.1, ?_, ?_, links.1, others, parts.2⟩
  · rw [wellFormed.head, first_append]
    rfl
  · rw [wellFormed.tail, last_append]
    rfl

theorem listDetach_removed (wellFormed : WellFormed state (front ++ (node, value) :: back)) :
    ∃ after, listDetach state node = some after ∧ Removed state after front back node ∧
      after.heap node = some ⟨0, 0, value⟩ := by
  obtain ⟨notNull, found, notIn, halves⟩ := wellFormed.around
  obtain ⟨middle, linked, halves', count, same⟩ := halves.linkPrevious (first back 0)
  obtain ⟨after, linked', halves'', count', same'⟩ := halves'.linkNext (last 0 front)
  rw [addresses_append, List.mem_append, not_or] at notIn
  have notLast : node ≠ last 0 front := by
    intro isLast
    cases front with
    | nil => exact notNull isLast
    | cons start rest =>
      apply notIn.1
      rw [isLast]
      exact last_mem (List.cons_ne_nil start rest) 0
  have notFirst : node ≠ first back 0 := by
    intro isFirst
    cases back with
    | nil => exact notNull isFirst
    | cons start rest =>
      apply notIn.2
      rw [isFirst]
      exact List.mem_cons_self
  have isNode : after.heap node = some ⟨last 0 front, first back 0, value⟩ := by
    rw [same' node notFirst, same node notLast, found]
  refine ⟨⟨Function.update after.heap node (some ⟨0, 0, value⟩), after.list.add (-1)⟩, ?_,
    ⟨?_, ?_⟩, Function.update_self _ _ _⟩
  · unfold listDetach
    rw [if_neg notNull]
    simp only [Option.bind_eq_bind, found, Option.bind_some, linked, linked', setPrevious, setNext,
      isNode, Option.map_some, Function.update_self, Function.update_idem]
  · have framed := @Halves.frame after front back _ _ halves''
        (Function.update after.heap node (some ⟨0, 0, value⟩)) (by
      intro other isIn
      apply Function.update_of_ne
      intro isSame
      rw [isSame, addresses_append, List.mem_append] at isIn
      cases isIn with
      | inl isFront => exact notIn.1 isFront
      | inr isBack => exact notIn.2 isBack)
    have closed : Halves ⟨Function.update after.heap node (some ⟨0, 0, value⟩),
        after.list.add (-1)⟩ front back (first back 0) (last 0 front) :=
      ⟨framed.head, framed.tail, framed.linksFront, framed.linksBack, framed.nodup⟩
    apply closed.close
    show after.list.count + -1 = _
    rw [count', count, wellFormed.count]
    simp only [List.length_append, List.length_cons]
    omega
  · intro other notNode isNotLast isNotFirst
    show Function.update after.heap node (some ⟨0, 0, value⟩) other = state.heap other
    rw [Function.update_of_ne notNode, same' other isNotFirst, same other isNotLast]

theorem listErase_removed (wellFormed : WellFormed state (front ++ (node, value) :: back)) :
    ∃ after, listErase state node = some (after, first back 0) ∧
      Removed state after front back node ∧ after.heap node = none := by
  obtain ⟨notNull, found, notIn, _⟩ := wellFormed.around
  obtain ⟨after, detached, ⟨isFormed, same⟩, isNode⟩ := listDetach_removed wellFormed
  refine ⟨{ after with heap := Function.update after.heap node none }, ?_, ⟨?_, ?_⟩,
    Function.update_self _ _ _⟩
  · unfold listErase
    rw [if_neg notNull]
    simp only [Option.bind_eq_bind, found, Option.bind_some, detached, free, isNode,
      Option.map_some]
  · refine ⟨isFormed.head, isFormed.tail, isFormed.count, ?_, isFormed.nodup⟩
    apply isFormed.links.frame
    intro other isIn
    apply Function.update_of_ne
    intro isSame
    rw [isSame] at isIn
    exact notIn isIn
  · intro other notNode notLast notFirst
    show Function.update after.heap node none other = state.heap other
    rw [Function.update_of_ne notNode, same other notNode notLast notFirst]

theorem listPopFront_removed (wellFormed : WellFormed state ((node, value) :: back)) :
    ∃ after, listPopFront state = some (after, some value) ∧
      Removed state after [] back node ∧ after.heap node = none := by
  obtain ⟨notNull, found, _⟩ := @WellFormed.around state [] back node value wellFormed
  obtain ⟨after, erased, removed, isFree⟩ := @listErase_removed state [] back node value wellFormed
  have isHead : state.list.head = node := wellFormed.head
  refine ⟨after, ?_, removed, isFree⟩
  unfold listPopFront
  rw [isHead, if_neg notNull]
  simp only [Option.bind_eq_bind, found, Option.bind_some, erased]

theorem listPopBack_removed (wellFormed : WellFormed state (front ++ [(node, value)])) :
    ∃ after, listPopBack state = some (after, some value) ∧
      Removed state after front [] node ∧ after.heap node = none := by
  obtain ⟨notNull, found, _⟩ := wellFormed.around
  obtain ⟨after, erased, removed, isFree⟩ := listErase_removed wellFormed
  have isTail : state.list.tail = node := by
    rw [wellFormed.tail, last_append]
    rfl
  refine ⟨after, ?_, removed, isFree⟩
  unfold listPopBack
  rw [isTail, if_neg notNull]
  simp only [Option.bind_eq_bind, found, Option.bind_some, erased]

/-! ## Loops over the nodes -/

variable {fuel : Nat}

theorem findLoop_eq {heap : Heap} {nodes : List Node} (links : Links heap previous nodes 0)
    (value : Int) (enough : nodes.length < fuel) :
    findLoop heap value fuel (first nodes 0) =
      some (((nodes.find? fun node => node.2 = value).map Prod.fst).getD 0) := by
  induction nodes generalizing previous fuel with
  | nil =>
    cases fuel with
    | zero => omega
    | succ fuel => rfl
  | cons node rest ih =>
    obtain ⟨node, other⟩ := node
    obtain ⟨notNull, found, others⟩ := links
    cases fuel with
    | zero => omega
    | succ fuel =>
      have isFirst : first ((node, other) :: rest) 0 = node := rfl
      rw [List.length_cons] at enough
      rw [isFirst, findLoop, if_neg notNull, found, Option.bind_some, List.find?_cons]
      by_cases isValue : other = value
      · simp [isValue]
      · simp only [isValue, if_false, decide_false]
        exact ih others (by omega)

theorem clearLoop_eq {heap : Heap} {nodes : List Node} (links : Links heap previous nodes 0)
    (nodup : (addresses nodes).Nodup) (enough : nodes.length < fuel) :
    ∃ after, clearLoop fuel heap (first nodes 0) = some after ∧
      (∀ node ∈ addresses nodes, after node = none) ∧
      ∀ other, other ∉ addresses nodes → after other = heap other := by
  induction nodes generalizing heap previous fuel with
  | nil =>
    cases fuel with
    | zero => omega
    | succ fuel =>
      refine ⟨heap, rfl, ?_, fun _ _ => rfl⟩
      intro node isIn
      cases isIn
  | cons node rest ih =>
    obtain ⟨node, value⟩ := node
    obtain ⟨notNull, found, others⟩ := links
    have parts := List.nodup_cons.mp nodup
    cases fuel with
    | zero => omega
    | succ fuel =>
      rw [List.length_cons] at enough
      have framed : Links (Function.update heap node none) node rest 0 := by
        apply others.frame
        intro other isIn
        apply Function.update_of_ne
        intro same
        rw [same] at isIn
        exact parts.1 isIn
      obtain ⟨after, cleared, isFree, same⟩ :=
        ih framed parts.2 (show rest.length < fuel by omega)
      have isFirst : first ((node, value) :: rest) 0 = node := rfl
      refine ⟨after, ?_, ?_, ?_⟩
      · rw [isFirst, clearLoop, if_neg notNull]
        simp only [Option.bind_eq_bind, found, Option.bind_some, free, Option.map_some]
        exact cleared
      · intro other isIn
        cases List.mem_cons.mp isIn with
        | inl isNode =>
          rw [isNode, same node parts.1]
          exact Function.update_self _ _ _
        | inr isRest => exact isFree other isRest
      · intro other notIn
        have split := not_or.mp (List.mem_cons.not.mp notIn)
        rw [same other split.2]
        exact Function.update_of_ne split.1 _ _

theorem listClear_eq {nodes : List Node} (wellFormed : WellFormed state nodes)
    (enough : nodes.length < fuel) :
    ∃ after, listClear state fuel = some after ∧ WellFormed after [] ∧
      (∀ node ∈ addresses nodes, after.heap node = none) ∧
      ∀ other, other ∉ addresses nodes → after.heap other = state.heap other := by
  obtain ⟨heap, cleared, isFree, same⟩ :=
    clearLoop_eq wellFormed.links wellFormed.nodup enough
  refine ⟨listInit heap, ?_, ⟨rfl, rfl, rfl, trivial, List.nodup_nil⟩, isFree, same⟩
  unfold listClear
  rw [wellFormed.head, cleared]
  rfl

theorem forwardLoop_eq {heap : Heap} {nodes : List Node} (links : Links heap previous nodes 0)
    (count : Int) (enough : nodes.length < fuel) :
    forwardLoop heap fuel (first nodes 0) previous count =
      some (some (last previous nodes, count + nodes.length)) := by
  induction nodes generalizing previous count fuel with
  | nil =>
    cases fuel with
    | zero => omega
    | succ fuel => simp [forwardLoop, first, last]
  | cons node rest ih =>
    obtain ⟨node, value⟩ := node
    obtain ⟨notNull, found, others⟩ := links
    cases fuel with
    | zero => omega
    | succ fuel =>
      rw [List.length_cons] at enough ⊢
      have isFirst : first ((node, value) :: rest) 0 = node := rfl
      have next := ih others (count + 1) (show rest.length < fuel by omega)
      rw [isFirst, forwardLoop, if_neg notNull, found, Option.bind_some, if_neg (by simp), next,
        Int.natCast_add, Int.add_assoc, Int.add_comm 1]
      rfl

theorem backwardLoop_eq {heap : Heap} {nodes : List Node} (links : Links heap 0 nodes next)
    (count : Int) (enough : nodes.length < fuel) :
    backwardLoop heap fuel (last 0 nodes) next count =
      some (some (first nodes next, count + nodes.length)) := by
  induction nodes using List.reverseRecOn generalizing next count fuel with
  | nil =>
    cases fuel with
    | zero => omega
    | succ fuel => simp [backwardLoop, first, last]
  | append_singleton rest node ih =>
    obtain ⟨node, value⟩ := node
    have parts := links_append.mp links
    obtain ⟨notNull, found, _⟩ := parts.2
    cases fuel with
    | zero => omega
    | succ fuel =>
      rw [List.length_append, List.length_singleton] at enough ⊢
      have isLast : last 0 (rest ++ [(node, value)]) = node := last_append 0 rest _
      have isFirst : first (rest ++ [(node, value)]) next = first rest node :=
        first_append rest _ next
      have others : backwardLoop heap fuel (last 0 rest) node (count + 1) =
          some (some (first rest node, count + 1 + rest.length)) :=
        ih parts.1 (count + 1) (by omega)
      rw [isLast, isFirst, backwardLoop, if_neg notNull, found, Option.bind_some,
        if_neg (by simp [first])]
      show backwardLoop heap fuel (last 0 rest) node (count + 1) = _
      rw [others, Int.natCast_add, Int.add_assoc, Int.add_comm 1]
      rfl

theorem listIsValid_wellFormed {nodes : List Node} (wellFormed : WellFormed state nodes)
    (enough : nodes.length < fuel) : listIsValid state fuel = some true := by
  have forward := forwardLoop_eq wellFormed.links 0 enough
  have backward := backwardLoop_eq wellFormed.links 0 enough
  have head := wellFormed.head
  have tail := wellFormed.tail
  have count := wellFormed.count
  rw [Int.zero_add] at forward backward
  rw [← head, ← tail, ← count] at forward
  rw [← head, ← tail, ← count] at backward
  cases nodes with
  | nil =>
    have isHead : state.list.head = 0 := head
    have isTail : state.list.tail = 0 := tail
    have isCount : state.list.count = 0 := count
    unfold listIsValid
    simp [isHead, isTail, isCount]
  | cons node rest =>
    have ⟨notNull, found, _⟩ := wellFormed.links
    have isHead : state.list.head = node.1 := head
    obtain ⟨front, ⟨final, value⟩, isSplit⟩ :=
      ((node :: rest).eq_nil_or_concat').resolve_left (List.cons_ne_nil node rest)
    have links := wellFormed.links
    rw [isSplit] at links tail
    obtain ⟨notNull', found', _⟩ := (links_append.mp links).2
    have isTail : state.list.tail = final := by
      rw [tail, last_append]
      rfl
    have isFirst : first ([] : List Node) 0 = 0 := rfl
    rw [isFirst] at found'
    unfold listIsValid
    rw [isHead] at forward backward
    rw [isTail] at forward backward
    simp [isHead, isTail, notNull, notNull', found, found', forward, backward]

end

/-! ## Histories -/

/-- `node` is what `MAlloc` yields; without one it throws. -/
inductive ListRequest where
  | pushFront (node : Option Nat) (value : Int)
  | pushBack (node : Option Nat) (value : Int)
  | insertAfter (node : Option Nat) (position : Nat) (value : Int)
  | insertBefore (node : Option Nat) (position : Nat) (value : Int)
  | popFront
  | popBack
  | detach (position : Nat)
  | erase (position : Nat)
  | find (value : Int)
  | clear
  deriving DecidableEq, Repr

inductive ListResult where
  | pointer (node : Nat)
  | popped (value : Option Int)
  | nothing
  | thrown
  deriving DecidableEq, Repr

def withNode (state : ListState) (node : Option Nat) (insert : Nat → Option ListState) :
    Option (ListState × ListResult) :=
  match node with
  | none => some (state, .thrown)
  | some node => (insert node).map fun after => (after, .pointer node)

/-- The loops go round at most once for each node and once more. -/
def rounds (state : ListState) : Nat := state.list.count.toNat + 1

def ListState.step (state : ListState) : ListRequest → Option (ListState × ListResult)
  | .pushFront node value => withNode state node fun node => listPushFront state node value
  | .pushBack node value => withNode state node fun node => listPushBack state node value
  | .insertAfter node position value =>
    withNode state node fun node => listInsertAfter state node position value
  | .insertBefore node position value =>
    withNode state node fun node => listInsertBefore state node position value
  | .popFront => (listPopFront state).map fun after => (after.1, .popped after.2)
  | .popBack => (listPopBack state).map fun after => (after.1, .popped after.2)
  | .detach position => (listDetach state position).map fun after => (after, .pointer position)
  | .erase position => (listErase state position).map fun after => (after.1, .pointer after.2)
  | .find value => (listFind state (rounds state) value).map fun node => (state, .pointer node)
  | .clear => (listClear state (rounds state)).map fun after => (after, .nothing)

def ListState.run (state : ListState) : List ListRequest → Option (ListState × List ListResult)
  | [] => some (state, [])
  | request :: rest => do
    let (after, result) ← state.step request
    let (final, results) ← after.run rest
    some (final, result :: results)

/-! ## The purpose -/

def frontOf (position : Nat) : List Node → List Node
  | [] => []
  | node :: rest => if node.1 = position then [] else node :: frontOf position rest

def fromNode (position : Nat) : List Node → List Node
  | [] => []
  | node :: rest => if node.1 = position then node :: rest else fromNode position rest

def backOf (position : Nat) (nodes : List Node) : List Node := (fromNode position nodes).tail

def upTo (position : Nat) (nodes : List Node) : List Node :=
  if position = 0 then [] else frontOf position nodes ++ (fromNode position nodes).take 1

def downTo (position : Nat) (nodes : List Node) : List Node :=
  if position = 0 then nodes else frontOf position nodes

def inserted (nodes : List Node) (node : Option Nat) (front : List Node) (value : Int) :
    List Node × ListResult :=
  match node with
  | none => (nodes, .thrown)
  | some node => (front ++ (node, value) :: nodes.drop front.length, .pointer node)

def sequence (nodes : List Node) : ListRequest → List Node × ListResult
  | .pushFront node value => inserted nodes node [] value
  | .pushBack node value => inserted nodes node nodes value
  | .insertAfter node position value => inserted nodes node (upTo position nodes) value
  | .insertBefore node position value =>
    inserted nodes node (downTo position nodes) value
  | .popFront => (nodes.tail, .popped (nodes.head?.map Prod.snd))
  | .popBack => (nodes.dropLast, .popped (nodes.getLast?.map Prod.snd))
  | .detach position =>
    if position = 0 then (nodes, .pointer 0)
    else (frontOf position nodes ++ backOf position nodes, .pointer position)
  | .erase position =>
    if position = 0 then (nodes, .pointer 0)
    else (frontOf position nodes ++ backOf position nodes,
      .pointer (first (backOf position nodes) 0))
  | .find value =>
    (nodes, .pointer (((nodes.find? fun node => node.2 = value).map Prod.fst).getD 0))
  | .clear => ([], .nothing)

def ends (front back : List Node) : List Nat := [last 0 front, first back 0]

def touchedBy (nodes : List Node) (node : Option Nat) (front : List Node) : List Nat :=
  node.toList ++ ends front (nodes.drop front.length)

def touched (nodes : List Node) : ListRequest → List Nat
  | .pushFront node _ => touchedBy nodes node []
  | .pushBack node _ => touchedBy nodes node nodes
  | .insertAfter node position _ => touchedBy nodes node (upTo position nodes)
  | .insertBefore node position _ =>
    touchedBy nodes node (downTo position nodes)
  | .popFront => first nodes 0 :: ends [] nodes.tail
  | .popBack => last 0 nodes :: ends nodes.dropLast []
  | .detach position => position :: ends (frontOf position nodes) (backOf position nodes)
  | .erase position => position :: ends (frontOf position nodes) (backOf position nodes)
  | .find _ => []
  | .clear => addresses nodes

/-- What the callers of the functions see to: `MAlloc` yields memory that is not
in use, and a node that is passed belongs to the list. -/
def Admits (state : ListState) (nodes : List Node) : ListRequest → Prop
  | .pushFront node _ => ∀ new ∈ node, Fresh state.heap new
  | .pushBack node _ => ∀ new ∈ node, Fresh state.heap new
  | .insertAfter node position _ =>
    (∀ new ∈ node, Fresh state.heap new) ∧ (position = 0 ∨ position ∈ addresses nodes)
  | .insertBefore node position _ =>
    (∀ new ∈ node, Fresh state.heap new) ∧ (position = 0 ∨ position ∈ addresses nodes)
  | .detach position => position = 0 ∨ position ∈ addresses nodes
  | .erase position => position = 0 ∨ position ∈ addresses nodes
  | _ => True

/-- What a step does: the list stands for the sequence, the result is the one of
the sequence, and every other node is as it was. -/
structure Follows (state : ListState) (nodes : List Node) (request : ListRequest)
    (after : ListState) (result : ListResult) : Prop where
  wellFormed : WellFormed after (sequence nodes request).1
  result_eq : result = (sequence nodes request).2
  same : ∀ other, other ∉ touched nodes request → after.heap other = state.heap other

theorem split_at {nodes : List Node} (isIn : position ∈ addresses nodes) :
    ∃ value, fromNode position nodes = (position, value) :: backOf position nodes ∧
      nodes = frontOf position nodes ++ (position, value) :: backOf position nodes := by
  induction nodes with
  | nil => cases isIn
  | cons node rest ih =>
    obtain ⟨node, value⟩ := node
    by_cases same : node = position
    · subst same
      refine ⟨value, ?_, ?_⟩
      · simp [fromNode, backOf]
      · simp [fromNode, backOf, frontOf]
    · have isRest : position ∈ addresses rest := by
        cases List.mem_cons.mp isIn with
        | inl isNode => exact absurd isNode.symm same
        | inr isRest => exact isRest
      obtain ⟨found, isFrom, split⟩ := ih isRest
      have isBack : backOf position ((node, value) :: rest) = backOf position rest := by
        simp [backOf, fromNode, same]
      refine ⟨found, ?_, ?_⟩
      · rw [isBack, fromNode, if_neg same, isFrom]
      · rw [isBack, frontOf, if_neg same, List.cons_append, ← split]

theorem upTo_spec {nodes : List Node} (admitted : position = 0 ∨ position ∈ addresses nodes) :
    nodes = upTo position nodes ++ nodes.drop (upTo position nodes).length ∧
      last 0 (upTo position nodes) = position := by
  unfold upTo
  split
  next isNull => exact ⟨rfl, isNull.symm⟩
  next notNull =>
    obtain ⟨value, isFrom, split⟩ := split_at (admitted.resolve_left notNull)
    have isUpTo : nodes = (frontOf position nodes ++ [(position, value)]) ++
        backOf position nodes := by
      rw [List.append_assoc, List.singleton_append]
      exact split
    have isTake : (fromNode position nodes).take 1 = [(position, value)] := by
      rw [isFrom]
      rfl
    rw [isTake]
    constructor
    · exact (List.prefix_iff_eq_append.mp ⟨_, isUpTo.symm⟩).symm
    · rw [last_append]
      rfl

theorem downTo_spec {nodes : List Node} (admitted : position = 0 ∨ position ∈ addresses nodes) :
    nodes = downTo position nodes ++ nodes.drop (downTo position nodes).length ∧
      first (nodes.drop (downTo position nodes).length) 0 = position := by
  unfold downTo
  split
  next isNull =>
    rw [List.drop_length, List.append_nil]
    exact ⟨rfl, isNull.symm⟩
  next notNull =>
    obtain ⟨value, isFrom, split⟩ := split_at (admitted.resolve_left notNull)
    have isBack : nodes.drop (frontOf position nodes).length =
        (position, value) :: backOf position nodes := by
      generalize frontOf position nodes = front at split ⊢
      generalize backOf position nodes = back at split ⊢
      rw [split, List.drop_left]
    rw [isBack]
    exact ⟨split, rfl⟩

section

variable {state : ListState} {nodes front : List Node}

theorem insert_follows (wellFormed : WellFormed state nodes)
    {node : Option Nat} (fresh : ∀ new ∈ node, Fresh state.heap new)
    {insert : Nat → Option ListState} {value : Int} {request : ListRequest}
    (inserts : ∀ new, Fresh state.heap new → ∃ after, insert new = some after ∧
      Inserted state after front (nodes.drop front.length) new value)
    (isSequence : sequence nodes request = inserted nodes node front value)
    (isTouched : touched nodes request = touchedBy nodes node front) :
    ∃ after result, withNode state node insert = some (after, result) ∧
      Follows state nodes request after result := by
  cases node with
  | none =>
    refine ⟨state, .thrown, rfl, ?_, ?_, fun _ _ => rfl⟩
    · rw [isSequence]
      exact wellFormed
    · rw [isSequence]
      rfl
  | some new =>
    obtain ⟨after, returned, isFormed, same⟩ := inserts new (fresh new rfl)
    refine ⟨after, .pointer new, ?_, ?_, ?_, ?_⟩
    · unfold withNode
      simp only [returned, Option.map_some]
    · rw [isSequence]
      exact isFormed
    · rw [isSequence]
      rfl
    · intro other notIn
      rw [isTouched] at notIn
      simp only [touchedBy, ends, Option.toList_some, List.singleton_append, List.mem_cons,
        List.not_mem_nil, or_false, not_or] at notIn
      exact same other notIn.1 notIn.2.1 notIn.2.2

theorem insertAfter_follows (wellFormed : WellFormed state nodes) {node : Option Nat}
    (fresh : ∀ new ∈ node, Fresh state.heap new) (value : Int) {request : ListRequest}
    (isPrefix : nodes = front ++ nodes.drop front.length)
    (isSequence : sequence nodes request = inserted nodes node front value)
    (isTouched : touched nodes request = touchedBy nodes node front) :
    ∃ after result,
      withNode state node (fun node => listInsertAfter state node (last 0 front) value) =
        some (after, result) ∧ Follows state nodes request after result := by
  apply insert_follows wellFormed fresh _ isSequence isTouched
  intro new isFresh
  exact listInsertAfter_inserted (isPrefix ▸ wellFormed) isFresh value

theorem insertBefore_follows (wellFormed : WellFormed state nodes) {node : Option Nat}
    (fresh : ∀ new ∈ node, Fresh state.heap new) (value : Int) {request : ListRequest}
    (isPrefix : nodes = front ++ nodes.drop front.length)
    (isSequence : sequence nodes request = inserted nodes node front value)
    (isTouched : touched nodes request = touchedBy nodes node front) :
    ∃ after result,
      withNode state node (fun node =>
        listInsertBefore state node (first (nodes.drop front.length) 0) value) =
        some (after, result) ∧ Follows state nodes request after result := by
  apply insert_follows wellFormed fresh _ isSequence isTouched
  intro new isFresh
  exact listInsertBefore_inserted (isPrefix ▸ wellFormed) isFresh value

theorem popFront_follows (wellFormed : WellFormed state nodes) :
    ∃ after result, state.step .popFront = some (after, result) ∧
      Follows state nodes .popFront after result := by
  cases nodes with
  | nil =>
    have isHead : state.list.head = 0 := wellFormed.head
    refine ⟨state, .popped none, ?_, wellFormed, rfl, fun _ _ => rfl⟩
    simp only [ListState.step, listPopFront, isHead, if_true, Option.map_some]
  | cons node rest =>
    obtain ⟨after, popped, removed, _⟩ := listPopFront_removed wellFormed
    refine ⟨after, .popped (some node.2), ?_, removed.wellFormed, rfl, ?_⟩
    · simp only [ListState.step, popped, Option.map_some]
    · intro other notIn
      simp only [touched, ends, List.mem_cons, List.not_mem_nil, or_false, not_or] at notIn
      exact removed.same other notIn.1 notIn.2.1 notIn.2.2

theorem popBack_follows (wellFormed : WellFormed state nodes) :
    ∃ after result, state.step .popBack = some (after, result) ∧
      Follows state nodes .popBack after result := by
  cases nodes.eq_nil_or_concat' with
  | inl isEmpty =>
    subst isEmpty
    have isTail : state.list.tail = 0 := wellFormed.tail
    refine ⟨state, .popped none, ?_, wellFormed, rfl, fun _ _ => rfl⟩
    simp only [ListState.step, listPopBack, isTail, if_true, Option.map_some]
  | inr split =>
    obtain ⟨front, ⟨node, value⟩, rfl⟩ := split
    obtain ⟨after, popped, removed, _⟩ := listPopBack_removed wellFormed
    have isFormed := removed.wellFormed
    rw [List.append_nil] at isFormed
    refine ⟨after, .popped (some value), ?_, ⟨?_, ?_, ?_⟩⟩
    · simp only [ListState.step, popped, Option.map_some]
    · simp only [sequence, List.dropLast_concat]
      exact isFormed
    · simp [sequence]
    · intro other notIn
      simp only [touched, ends, List.dropLast_concat, last_append, last, List.mem_cons,
        List.not_mem_nil, or_false, not_or] at notIn
      exact removed.same other notIn.1 notIn.2.1 notIn.2.2

theorem detach_follows (wellFormed : WellFormed state nodes)
    (admitted : position = 0 ∨ position ∈ addresses nodes) :
    ∃ after result, state.step (.detach position) = some (after, result) ∧
      Follows state nodes (.detach position) after result := by
  by_cases isNull : position = 0
  · subst isNull
    exact ⟨state, .pointer 0, rfl, wellFormed, rfl, fun _ _ => rfl⟩
  obtain ⟨value, _, split⟩ := split_at (admitted.resolve_left isNull)
  obtain ⟨after, detached, removed, _⟩ := listDetach_removed (split ▸ wellFormed)
  refine ⟨after, .pointer position, ?_, ?_, ?_, ?_⟩
  · simp only [ListState.step, detached, Option.map_some]
  · simp only [sequence, if_neg isNull]
    exact removed.wellFormed
  · simp only [sequence, if_neg isNull]
  · intro other notIn
    simp only [touched, ends, List.mem_cons, List.not_mem_nil, or_false, not_or] at notIn
    exact removed.same other notIn.1 notIn.2.1 notIn.2.2

theorem erase_follows (wellFormed : WellFormed state nodes)
    (admitted : position = 0 ∨ position ∈ addresses nodes) :
    ∃ after result, state.step (.erase position) = some (after, result) ∧
      Follows state nodes (.erase position) after result := by
  by_cases isNull : position = 0
  · subst isNull
    exact ⟨state, .pointer 0, rfl, wellFormed, rfl, fun _ _ => rfl⟩
  obtain ⟨value, _, split⟩ := split_at (admitted.resolve_left isNull)
  obtain ⟨after, erased, removed, _⟩ := listErase_removed (split ▸ wellFormed)
  refine ⟨after, .pointer (first (backOf position nodes) 0), ?_, ?_, ?_, ?_⟩
  · simp only [ListState.step, erased, Option.map_some]
  · simp only [sequence, if_neg isNull]
    exact removed.wellFormed
  · simp only [sequence, if_neg isNull]
  · intro other notIn
    simp only [touched, ends, List.mem_cons, List.not_mem_nil, or_false, not_or] at notIn
    exact removed.same other notIn.1 notIn.2.1 notIn.2.2

theorem ListState.step_follows (wellFormed : WellFormed state nodes) (request : ListRequest)
    (admits : Admits state nodes request) :
    ∃ after result, state.step request = some (after, result) ∧
      Follows state nodes request after result := by
  have enough : nodes.length < rounds state := by
    unfold rounds
    rw [wellFormed.count, Int.toNat_natCast]
    omega
  have stays : WellFormed state nodes := wellFormed
  cases request with
  | pushFront node value =>
    exact @insertAfter_follows state nodes [] wellFormed node admits value _ rfl rfl rfl
  | pushBack node value =>
    have whole : nodes = nodes ++ nodes.drop nodes.length := by
      rw [List.drop_length, List.append_nil]
    have follows := @insertBefore_follows state nodes nodes wellFormed node admits value
      (.pushBack node value) whole rfl rfl
    rw [List.drop_length] at follows
    exact follows
  | insertAfter node position value =>
    obtain ⟨isPrefix, isLast⟩ := upTo_spec admits.2
    have follows := insertAfter_follows wellFormed admits.1 value isPrefix
      (show sequence nodes (.insertAfter node position value) = _ from rfl) rfl
    rw [isLast] at follows
    exact follows
  | insertBefore node position value =>
    obtain ⟨isPrefix, isFirst⟩ := downTo_spec admits.2
    have follows := insertBefore_follows wellFormed admits.1 value isPrefix
      (show sequence nodes (.insertBefore node position value) = _ from rfl) rfl
    rw [isFirst] at follows
    exact follows
  | popFront => exact popFront_follows wellFormed
  | popBack => exact popBack_follows wellFormed
  | detach position => exact detach_follows wellFormed admits
  | erase position => exact erase_follows wellFormed admits
  | find value =>
    have found := findLoop_eq wellFormed.links value enough
    rw [← wellFormed.head] at found
    refine ⟨state, _, ?_, stays, rfl, fun _ _ => rfl⟩
    simp only [ListState.step, listFind, found, Option.map_some]
    rfl
  | clear =>
    obtain ⟨after, cleared, isFormed, _, same⟩ := listClear_eq wellFormed enough
    refine ⟨after, .nothing, ?_, isFormed, rfl, same⟩
    simp only [ListState.step, cleared, Option.map_some]

def AdmitsAll : ListState → List Node → List ListRequest → Prop
  | _, _, [] => True
  | state, nodes, request :: rest =>
    Admits state nodes request ∧ ∀ after result, state.step request = some (after, result) →
      AdmitsAll after (sequence nodes request).1 rest

def sequences (nodes : List Node) : List ListRequest → List Node × List ListResult
  | [] => (nodes, [])
  | request :: rest =>
    let after := sequence nodes request
    let final := sequences after.1 rest
    (final.1, after.2 :: final.2)

theorem ListState.run_follows (wellFormed : WellFormed state nodes) (requests : List ListRequest)
    (admits : AdmitsAll state nodes requests) :
    ∃ after, state.run requests = some (after, (sequences nodes requests).2) ∧
      WellFormed after (sequences nodes requests).1 := by
  induction requests generalizing state nodes with
  | nil => exact ⟨state, rfl, wellFormed⟩
  | cons request rest ih =>
    obtain ⟨admitted, others⟩ := admits
    obtain ⟨middle, result, stepped, follows⟩ := state.step_follows wellFormed request admitted
    obtain ⟨after, ran, isFormed⟩ := ih follows.wellFormed (others middle result stepped)
    refine ⟨after, ?_, isFormed⟩
    unfold ListState.run
    simp only [Option.bind_eq_bind, stepped, Option.bind_some, ran, follows.result_eq]
    rfl

end

/-- In every history of a list it is well formed and stands for the sequence,
and so it is behind every further step, which leaves the other nodes alone. -/
theorem list_wellFormed (heap : Heap) (requests : List ListRequest)
    (admits : AdmitsAll (listInit heap) [] requests) :
    ∃ state, (listInit heap).run requests = some (state, (sequences [] requests).2) ∧
      WellFormed state (sequences [] requests).1 ∧
      listIsValid state (rounds state) = some true ∧
      ∀ request, Admits state (sequences [] requests).1 request →
        ∃ after result, state.step request = some (after, result) ∧
          Follows state (sequences [] requests).1 request after result := by
  have start : WellFormed (listInit heap) [] := ⟨rfl, rfl, rfl, trivial, List.nodup_nil⟩
  obtain ⟨state, ran, isFormed⟩ := (listInit heap).run_follows start requests admits
  refine ⟨state, ran, isFormed, ?_, state.step_follows isFormed⟩
  apply listIsValid_wellFormed isFormed
  unfold rounds
  rw [isFormed.count, Int.toNat_natCast]
  omega

/-- A node is inserted in front of another one, which is then detached. -/
def twoNodes : List ListRequest :=
  [.pushBack (some 8) 1, .insertBefore (some 16) 8 2, .detach 8]

theorem list_wellFormed_twoNodes :
    ∃ state, (listInit fun _ => none).run twoNodes =
        some (state, [.pointer 8, .pointer 16, .pointer 8]) ∧
      WellFormed state [(16, 2)] := by
  have admits : AdmitsAll (listInit fun _ => none) [] twoNodes := by
    refine ⟨?_, fun middle result pushed => ⟨⟨?_, Or.inr (by decide)⟩,
      fun _ _ _ => ⟨Or.inr (by decide), fun _ _ _ => trivial⟩⟩⟩
    · intro new isNew
      cases isNew
      exact ⟨by decide, rfl⟩
    · intro new isNew
      cases isNew
      have free := congrArg (Option.map fun after => after.1.heap 16) pushed
      have isFree : some none = some (middle.heap 16) := free
      exact ⟨by decide, (Option.some.inj isFree).symm⟩
  obtain ⟨state, ran, isFormed, _⟩ := list_wellFormed _ _ admits
  exact ⟨state, ran, isFormed⟩

end Aholyc.Linked
