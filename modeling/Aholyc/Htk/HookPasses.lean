import Mathlib.Data.List.Perm.Subperm
import Aholyc.Htk.Hooks

/-!
# What a pass over the hooks keeps

The invariant `Inv s l` says that `l` is the list of the hooks, that each live hook is in it
or in the call of its function, and where the passes are that wait for a callback: what they
still owe comes behind the link at which they go on. Each kind of step keeps it.
-/

namespace Aholyc.Htk

open Aholyc.Lib

/-! ## The invariant -/

/-- The hook whose call the pass is in, which is no longer in the list. -/
def Pass.pending (pass : Pass) : Option Nat := if pass.phase = .oneShot then pass.h else none

def pending (passes : List Pass) : List Nat := passes.filterMap Pass.pending

def Pass.anchor (pass : Pass) : Link Nat :=
  match pass.phase, pass.h with
  | .repeats, some id => .next id
  | _, _ => pass.prev

structure PassOk (hooks : List HtkHook) (l outer : List Nat) (pass : Pass) : Prop where
  waiting : ∀ g ∈ pass.waiting, isDue hooks pass.now g = true
  behind : ∀ g ∈ pass.waiting, Behind l pass.anchor g
  scan : pass.phase = .scan → ∃ rest, After l pass.prev rest ∧ Chain (nextOf hooks) pass.h rest
  repeats : pass.phase = .repeats → ∃ id, pass.h = some id ∧ isRepeating hooks id = true
  oneShot : pass.phase = .oneShot → ∃ id, pass.h = some id ∧
    ∀ p, pass.prev = .next p → p < hooks.length ∧ p ≠ id ∧ p ∉ outer

def PassesOk (hooks : List HtkHook) (l : List Nat) : List Pass → Prop
  | [] => True
  | pass :: outer => PassOk hooks l (pending outer) pass ∧ PassesOk hooks l outer

structure Inv (s : Hooks) (l : List Nat) : Prop where
  chain : Chain (nextOf s.hooks) s.htkHooks l
  nodup : (l ++ pending s.passes).Nodup
  live : ∀ id, isLive s.hooks id = true ↔ id ∈ l ∨ id ∈ pending s.passes
  repeating : ∀ id, isRepeating s.hooks id = true → id ∈ l
  count : ∀ id, isOneShot s.hooks id = true →
    (s.called.map Prod.fst).count id = if id ∈ l then 0 else 1
  due : ∀ id now, (id, now) ∈ s.called → now ≤ s.termMs ∧ isDue s.hooks now id = true
  clock : ∀ pass ∈ s.passes, pass.now ≤ s.termMs
  passes : PassesOk s.hooks l s.passes
  calling : ∀ pass ∈ s.passes.tail, pass.phase ≠ .scan

/-- The passes that wait for a callback stay as they are when hooks are linked in another
way and one is taken out. -/
theorem PassesOk.kept {hooks hooks' : List HtkHook} {l l' : List Nat} {passes : List Pass}
    (ok : PassesOk hooks l passes) (same : hooks'.map HtkHook.core = hooks.map HtkHook.core)
    (order : ∀ link g, Behind l link g → Behind l' link g)
    (calling : ∀ pass ∈ passes, pass.phase ≠ .scan) : PassesOk hooks' l' passes := by
  induction passes with
  | nil => trivial
  | cons pass outer ih =>
    obtain ⟨isOk, later⟩ := ok
    refine ⟨?_, ih later fun pass member => calling pass (List.mem_cons_of_mem _ member)⟩
    exact
      { waiting := by
          intro g member
          rw [isDue_core same]
          exact isOk.waiting g member
        behind := fun g member => order _ g (isOk.behind g member)
        scan := fun isScan => absurd isScan (calling pass List.mem_cons_self)
        repeats := by
          intro isRepeats
          obtain ⟨id, isHook, repeating⟩ := isOk.repeats isRepeats
          exact ⟨id, isHook, (isRepeating_core same id).trans repeating⟩
        oneShot := by
          rw [core_length same]
          exact isOk.oneShot }

/-! ## Steps of the program and of callbacks -/

section Steps

variable {s : Hooks} {l : List Nat} (inv : Inv s l)

include inv

theorem Inv.listNodup : l.Nodup := (List.nodup_append.mp inv.nodup).1

theorem Inv.tick (ms : Nat) : Inv { s with termMs := s.termMs + ms } l :=
  { inv with
    due := by
      intro id now called
      have bounds := inv.due id now called
      exact ⟨show now ≤ s.termMs + ms by omega, bounds.2⟩
    clock := by
      intro pass member
      have bound := inv.clock pass member
      show pass.now ≤ s.termMs + ms
      omega }

theorem Inv.userCode (user : s.userCode = true) : ∀ pass ∈ s.passes, pass.phase ≠ .scan := by
  intro pass member
  have calling := inv.calling
  unfold Hooks.userCode at user
  cases isPasses : s.passes with
  | nil =>
    rw [isPasses] at member
    cases member
  | cons top outer =>
    rw [isPasses] at member user calling
    cases List.mem_cons.mp member with
    | inl isTop =>
      rw [List.head?_cons, Option.all_some, decide_eq_true_iff] at user
      rw [isTop]
      exact user.1
    | inr inOuter => exact calling pass inOuter

theorem Inv.startPass (user : s.userCode = true) : Inv (startPass s) l := by
  have notScan := inv.userCode user
  exact
    { inv with
      clock := by
        intro pass member
        cases List.mem_cons.mp member with
        | inl isNew =>
          rw [isNew]
          exact Int.le_refl _
        | inr old => exact inv.clock pass old
      passes := by
        refine ⟨?_, inv.passes⟩
        exact
          { waiting := fun g member => (List.mem_filter.mp member).2
            behind := fun g member => trivial
            scan := fun _ => ⟨l, rfl, inv.chain⟩
            repeats := fun absent => by cases absent
            oneShot := fun absent => by cases absent }
      calling := notScan }

omit inv in
theorem PassesOk.add {hooks : List HtkHook} {passes : List Pass} (ok : PassesOk hooks l passes)
    (hook : HtkHook) (calling : ∀ pass ∈ passes, pass.phase ≠ .scan) :
    PassesOk (hooks ++ [hook]) (hooks.length :: l) passes := by
  induction passes with
  | nil => trivial
  | cons pass outer ih =>
    obtain ⟨isOk, later⟩ := ok
    have notScan := calling pass List.mem_cons_self
    have old {id : Nat} (less : id < hooks.length) :
        (hooks ++ [hook])[id]? = hooks[id]? := by
      rw [lookup_add, if_neg (by omega)]
    have anchored : pass.anchor ≠ .next hooks.length := by
      intro same
      unfold Pass.anchor at same
      cases phase : pass.phase with
      | scan => exact notScan phase
      | repeats =>
        obtain ⟨id, isHook, repeating⟩ := isOk.repeats phase
        have less := isRepeating_lt repeating
        simp only [phase, isHook, Link.next.injEq] at same
        omega
      | oneShot =>
        obtain ⟨id, isHook, inside⟩ := isOk.oneShot phase
        simp only [phase, isHook] at same
        have less := (inside _ same).1
        omega
    refine ⟨?_, ih later fun pass member => calling pass (List.mem_cons_of_mem _ member)⟩
    exact
      { waiting := by
          intro g member
          have due := isOk.waiting g member
          unfold isDue at due ⊢
          rw [old (isDue_lt (isOk.waiting g member))]
          exact due
        behind := by
          intro g member
          have less := isDue_lt (isOk.waiting g member)
          exact (isOk.behind g member).cons anchored (by omega)
        scan := fun isScan => absurd isScan notScan
        repeats := by
          intro isRepeats
          obtain ⟨id, isHook, repeating⟩ := isOk.repeats isRepeats
          refine ⟨id, isHook, ?_⟩
          have less := isRepeating_lt repeating
          unfold isRepeating at repeating ⊢
          rw [old less]
          exact repeating
        oneShot := by
          intro isOneShot
          obtain ⟨id, isHook, inside⟩ := isOk.oneShot isOneShot
          refine ⟨id, isHook, ?_⟩
          intro p isPrev
          have bounds := inside p isPrev
          rw [List.length_append]
          exact ⟨by omega, bounds.2⟩ }

theorem Inv.add (user : s.userCode = true) (delayMs : Nat) (repeatMs : Int) (fn : Nat)
    (a b : Int) : Inv (linked delayMs repeatMs fn a b s) (s.hooks.length :: l) := by
  have listed (id : Nat) (member : id ∈ l ∨ id ∈ pending s.passes) : id < s.hooks.length :=
    isLive_lt ((inv.live id).mpr member)
  have fresh : s.hooks.length ∉ l ++ pending s.passes := by
    intro member
    exact Nat.lt_irrefl _ (listed _ (List.mem_append.mp member))
  have notCalled : (s.called.map Prod.fst).count s.hooks.length = 0 := by
    rw [List.count_eq_zero]
    intro member
    obtain ⟨call, isCall, same⟩ := List.mem_map.mp member
    have due := inv.due call.1 call.2 isCall
    rw [same] at due
    exact Nat.lt_irrefl _ (isDue_lt due.2)
  exact
    { chain := by
        refine ⟨rfl, ?_⟩
        have isNext : nextOf (linked delayMs repeatMs fn a b s).hooks s.hooks.length =
            s.htkHooks := by
          unfold nextOf linked
          rw [lookup_add, if_pos rfl]
          rfl
        rw [isNext]
        apply inv.chain.congr
        intro id member
        have less := listed id (Or.inl member)
        unfold nextOf linked
        rw [lookup_add, if_neg (by omega)]
      nodup := List.nodup_cons.mpr ⟨fresh, inv.nodup⟩
      live := by
        intro id
        unfold isLive linked
        rw [lookup_add]
        by_cases isNew : id = s.hooks.length
        · rw [if_pos isNew, isNew]
          exact iff_of_true rfl (Or.inl List.mem_cons_self)
        · rw [if_neg isNew, List.mem_cons, or_assoc, or_iff_right isNew]
          exact inv.live id
      repeating := by
        intro id repeating
        unfold isRepeating linked at repeating
        rw [lookup_add] at repeating
        by_cases isNew : id = s.hooks.length
        · rw [isNew]
          exact List.mem_cons_self
        · rw [if_neg isNew] at repeating
          exact List.mem_cons_of_mem _ (inv.repeating id repeating)
      count := by
        intro id once
        unfold isOneShot linked at once
        rw [lookup_add] at once
        by_cases isNew : id = s.hooks.length
        · rw [isNew, if_pos List.mem_cons_self]
          exact notCalled
        · rw [if_neg isNew] at once
          simp only [List.mem_cons, isNew, false_or]
          exact inv.count id once
      due := by
        intro id now called
        have bounds := inv.due id now called
        have less := isDue_lt bounds.2
        refine ⟨bounds.1, ?_⟩
        unfold isDue at bounds ⊢
        unfold linked
        rw [lookup_add, if_neg (by omega)]
        exact bounds.2
      clock := inv.clock
      passes := inv.passes.add _ (inv.userCode user)
      calling := inv.calling }

end Steps

/-! ## Steps of a pass -/

section Passes

variable {s : Hooks} {l : List Nat} (inv : Inv s l) {pass : Pass} {outer : List Pass}
  (isPasses : s.passes = pass :: outer)

include inv isPasses

theorem Inv.top : PassOk s.hooks l (pending outer) pass ∧ PassesOk s.hooks l outer ∧
    ∀ pass ∈ outer, pass.phase ≠ .scan := by
  have passes := inv.passes
  have calling := inv.calling
  rw [isPasses] at passes calling
  exact ⟨passes.1, passes.2, calling⟩

theorem Inv.clocks {pass' : Pass} (isNow : pass'.now = pass.now) :
    ∀ other ∈ pass' :: outer, other.now ≤ s.termMs := by
  intro other member
  have bound := inv.clock pass (by rw [isPasses]; exact List.mem_cons_self)
  cases List.mem_cons.mp member with
  | inl isTop =>
    rw [isTop, isNow]
    exact bound
  | inr inOuter =>
    apply inv.clock
    rw [isPasses]
    exact List.mem_cons_of_mem _ inOuter

/-- A pass that is not in the call of a one-shot hook changes its variables only. -/
theorem Inv.moved {pass' : Pass} (isPending : pass'.pending = pass.pending)
    (isNow : pass'.now = pass.now) (isOk : PassOk s.hooks l (pending outer) pass') :
    Inv { s with passes := pass' :: outer } l := by
  have same : pending (pass' :: outer) = pending s.passes := by
    rw [isPasses]
    unfold pending
    rw [List.filterMap_cons, List.filterMap_cons, isPending]
  have top := inv.top isPasses
  exact
    { inv with
      nodup := by
        show (l ++ pending (pass' :: outer)).Nodup
        rw [same]
        exact inv.nodup
      live := by
        intro id
        show isLive s.hooks id = true ↔ id ∈ l ∨ id ∈ pending (pass' :: outer)
        rw [same]
        exact inv.live id
      clock := inv.clocks isPasses isNow
      passes := ⟨isOk, top.2.1⟩
      calling := top.2.2 }

/-- A pass ends that is not in the call of a one-shot hook. -/
theorem Inv.pop (idle : pass.phase ≠ .oneShot) : Inv { s with passes := outer } l := by
  have same : pending outer = pending s.passes := by
    have none' : pass.pending = none := if_neg idle
    rw [isPasses]
    unfold pending
    rw [List.filterMap_cons, none']
  have top := inv.top isPasses
  exact
    { inv with
      nodup := by
        show (l ++ pending outer).Nodup
        rw [same]
        exact inv.nodup
      live := by
        intro id
        show isLive s.hooks id = true ↔ id ∈ l ∨ id ∈ pending outer
        rw [same]
        exact inv.live id
      clock := by
        intro other member
        apply inv.clock
        rw [isPasses]
        exact List.mem_cons_of_mem _ member
      passes := top.2.1
      calling := fun other member => top.2.2 other (List.mem_of_mem_tail member) }

omit isPasses in
theorem Inv.leave {depth : Nat} (idle : ∀ pass ∈ s.passes.take depth, pass.phase ≠ .oneShot) :
    Inv { s with passes := s.passes.drop depth } l := by
  induction depth generalizing s with
  | zero => exact inv
  | succ depth ih =>
    cases isPasses : s.passes with
    | nil =>
      rw [List.drop_nil, ← isPasses]
      exact inv
    | cons pass outer =>
      rw [isPasses, List.take_succ_cons, List.forall_mem_cons] at idle
      exact ih (inv.pop isPasses idle.1) idle.2

variable {id : Nat} {hook : HtkHook}

theorem Inv.scanning (scanning : pass.phase = .scan) (isHook : pass.h = some id) :
    ∃ rest hook, After l pass.prev (id :: rest) ∧ Chain (nextOf s.hooks) (nextOf s.hooks id) rest ∧
      id ∈ l ∧ s.read id = some hook := by
  obtain ⟨rest, isAfter, chain⟩ := (inv.top isPasses).1.scan scanning
  rw [isHook] at chain
  cases rest with
  | nil => cases chain
  | cons id' rest =>
    obtain ⟨same, chain⟩ := chain
    cases same
    have member : id ∈ l := isAfter.subset List.mem_cons_self
    obtain ⟨hook, isRead⟩ := Hooks.read_live ((inv.live id).mpr (Or.inl member))
    exact ⟨rest, hook, isAfter, chain, member, isRead⟩

/-- The pass goes over a hook: none that waits is passed over. -/
theorem Inv.goOver (scanning : pass.phase = .scan) (isHook : pass.h = some id)
    (other : id ∉ pass.waiting) (isRead : s.read id = some hook) :
    Inv { s with passes := { pass with prev := .next id, h := hook.next } :: outer } l := by
  obtain ⟨rest, _, isAfter, chain, _, _⟩ := inv.scanning isPasses scanning isHook
  have isOk := (inv.top isPasses).1
  have isNext : nextOf s.hooks id = hook.next := by
    unfold nextOf
    rw [(Hooks.read_some isRead).1]
    rfl
  have anchored : pass.anchor = pass.prev := by
    unfold Pass.anchor
    rw [scanning]
  apply inv.moved isPasses
  · unfold Pass.pending
    rw [scanning]
    rfl
  · rfl
  · exact
      { waiting := isOk.waiting
        behind := by
          intro g member
          have behind := isOk.behind g member
          rw [anchored] at behind
          have differs : g ≠ id := by
            intro same
            exact other (same ▸ member)
          have isAnchor : Pass.anchor { pass with prev := .next id, h := hook.next } =
              .next id := by
            unfold Pass.anchor
            rw [scanning]
          rw [isAnchor]
          exact behind.step isAfter inv.listNodup differs
        scan := fun _ => ⟨rest, isAfter.step, isNext ▸ chain⟩
        repeats := fun isRepeats => by
          rw [show pass.phase = _ from isRepeats] at scanning
          cases scanning
        oneShot := fun isOneShot => by
          rw [show pass.phase = _ from isOneShot] at scanning
          cases scanning }

omit isPasses in
/-- What the invariant says of the hooks by number holds of hooks with the same cores. -/
theorem Inv.recored {hooks : List HtkHook}
    (same : hooks.map HtkHook.core = s.hooks.map HtkHook.core) :
    (∀ id, isRepeating hooks id = true → id ∈ l) ∧
      (∀ id, isOneShot hooks id = true →
        (s.called.map Prod.fst).count id = if id ∈ l then 0 else 1) ∧
      ∀ id now, (id, now) ∈ s.called → now ≤ s.termMs ∧ isDue hooks now id = true := by
  refine ⟨?_, ?_, ?_⟩
  · intro id
    rw [isRepeating_core same]
    exact inv.repeating id
  · intro id
    rw [isOneShot_core same]
    exact inv.count id
  · intro id now
    rw [isDue_core same]
    exact inv.due id now

omit isPasses in
/-- A new time for a repeating hook: the list and what is live stay. -/
theorem Inv.postpone (isRead : s.read id = some hook) (repeating : hook.ms ≠ 0) (due : Int) :
    (s.hooks.set id { hook with due := due }).map HtkHook.core = s.hooks.map HtkHook.core ∧
      Chain (nextOf (s.hooks.set id { hook with due := due })) s.htkHooks l ∧
      ∀ i, isLive (s.hooks.set id { hook with due := due }) i = isLive s.hooks i := by
  obtain ⟨isHook, notFreed⟩ := Hooks.read_some isRead
  obtain ⟨less, _⟩ := List.getElem?_eq_some_iff.mp isHook
  refine ⟨core_set isHook ?_, ?_, ?_⟩
  · simp only [HtkHook.core, repeating, if_false]
  · apply inv.chain.congr
    intro i _
    rw [nextOf_set less]
    split
    next same =>
      rw [same]
      unfold nextOf
      rw [isHook]
      rfl
    · rfl
  · intro i
    rw [isLive_set less]
    split
    next same =>
      rw [same]
      unfold isLive
      rw [isHook]
      rfl
    · rfl

/-- A repeating hook that is due is called; it stays in the list. -/
theorem Inv.callRepeating (scanning : pass.phase = .scan) (isHook : pass.h = some id)
    (isRead : s.read id = some hook) (repeating : hook.ms ≠ 0) (due : Int) :
    Inv { s.store id { hook with due := due } with
      passes := { pass with call := hook.fn, phase := .repeats } :: outer } l := by
  obtain ⟨rest, _, isAfter, _, _, _⟩ := inv.scanning isPasses scanning isHook
  obtain ⟨isOk, outerOk, calling⟩ := inv.top isPasses
  obtain ⟨sameCore, chain, sameLive⟩ := inv.postpone isRead repeating due
  have repeats : isRepeating s.hooks id = true := by
    unfold isRepeating
    rw [(Hooks.read_some isRead).1, Option.any_some]
    exact decide_eq_true repeating
  have anchored : pass.anchor = pass.prev := by
    unfold Pass.anchor
    rw [scanning]
  have same : pending ({ pass with call := hook.fn, phase := .repeats } :: outer) =
      pending s.passes := by
    rw [isPasses]
    unfold pending Pass.pending
    rw [List.filterMap_cons, List.filterMap_cons, scanning]
    rfl
  exact
    { chain := chain
      nodup := by
        show (l ++ pending ({ pass with call := hook.fn, phase := .repeats } :: outer)).Nodup
        rw [same]
        exact inv.nodup
      live := by
        intro i
        show isLive (s.hooks.set id { hook with due := due }) i = true ↔
          i ∈ l ∨ i ∈ pending ({ pass with call := hook.fn, phase := .repeats } :: outer)
        rw [same, sameLive]
        exact inv.live i
      repeating := (inv.recored sameCore).1
      count := (inv.recored sameCore).2.1
      due := (inv.recored sameCore).2.2
      clock := inv.clocks isPasses rfl
      passes := by
        refine ⟨?_, outerOk.kept sameCore (fun _ _ behind => behind) calling⟩
        exact
          { waiting := by
              intro g member
              show isDue (s.hooks.set id { hook with due := due }) pass.now g = true
              rw [isDue_core sameCore]
              exact isOk.waiting g member
            behind := by
              intro g member
              have behind := isOk.behind g member
              rw [anchored] at behind
              have differs : g ≠ id := by
                intro isSame
                have isDue' := isOk.waiting g member
                unfold isDue at isDue'
                rw [isSame, (Hooks.read_some isRead).1, Option.any_some, decide_eq_true_iff]
                  at isDue'
                exact repeating isDue'.1
              have isAnchor :
                  Pass.anchor { pass with call := hook.fn, phase := .repeats } = .next id := by
                unfold Pass.anchor
                simp only [isHook]
              rw [isAnchor]
              exact behind.step isAfter inv.listNodup differs
            scan := fun absent => by cases absent
            repeats := fun _ => ⟨id, isHook, (isRepeating_core sameCore id).trans repeats⟩
            oneShot := fun absent => by cases absent }
      calling := calling }

omit isPasses in
theorem Inv.unlink {link : Link Nat} {rest : List Nat} (isAfter : After l link (id :: rest))
    (isRead : s.read id = some hook) :
    ∃ hooks head, s.writeLink hook.next link = some { s with hooks := hooks, htkHooks := head } ∧
      hooks.map HtkHook.core = s.hooks.map HtkHook.core ∧
      (∀ i, isLive hooks i = isLive s.hooks i) ∧ Chain (nextOf hooks) head (l.erase id) := by
  have nodup := inv.listNodup
  have chain := inv.chain
  have isNext : nextOf s.hooks id = hook.next := by
    unfold nextOf
    rw [(Hooks.read_some isRead).1]
    rfl
  cases link with
  | head =>
    rw [← show id :: rest = l from isAfter] at chain ⊢
    refine ⟨s.hooks, hook.next, rfl, rfl, fun _ => rfl, ?_⟩
    rw [List.erase_cons_head, ← isNext]
    exact chain.2
  | next p =>
    have member : p ∈ l := isAfter.mem
    obtain ⟨front, isList⟩ := isAfter
    obtain ⟨before, isBefore⟩ := Hooks.read_live ((inv.live p).mpr (Or.inl member))
    obtain ⟨isFound, notFreed⟩ := Hooks.read_some isBefore
    obtain ⟨less, _⟩ := List.getElem?_eq_some_iff.mp isFound
    have isErase : l.erase id = front ++ p :: rest := by
      have notIn : id ∉ front ++ [p] := by
        intro isIn
        rw [isList, ← List.singleton_append, ← List.append_assoc] at nodup
        exact (List.nodup_append.mp nodup).2.2 id isIn id List.mem_cons_self rfl
      rw [isList, ← List.singleton_append, ← List.append_assoc,
        List.erase_append_right _ notIn, List.erase_cons_head, List.append_assoc,
        List.singleton_append]
    refine ⟨s.hooks.set p { before with next := hook.next }, s.htkHooks, ?_, ?_, ?_, ?_⟩
    · unfold Hooks.writeLink
      dsimp only
      rw [isBefore]
      rfl
    · exact core_set isFound rfl
    · intro i
      rw [isLive_set less]
      split
      next same =>
        rw [same]
        unfold isLive
        rw [isFound]
        rfl
      · rfl
    · rw [isErase]
      rw [isList] at chain nodup
      apply chain.unlink nodup
      · rw [nextOf_set less, if_pos rfl, isNext]
      · intro k differs
        rw [nextOf_set less, if_neg differs]

/-- A one-shot hook that is due is taken out and called. -/
theorem Inv.callOneShot (scanning : pass.phase = .scan) (isHook : pass.h = some id)
    (isRead : s.read id = some hook) (once : hook.ms = 0) (isDue' : hook.due ≤ pass.now) :
    ∃ hooks head,
      s.writeLink hook.next pass.prev = some { s with hooks := hooks, htkHooks := head } ∧
      Inv { s with
        hooks := hooks
        htkHooks := head
        passes := { pass with call := hook.fn, phase := .oneShot } :: outer
        called := (id, pass.now) :: s.called } (l.erase id) := by
  obtain ⟨rest, _, isAfter, _, member, _⟩ := inv.scanning isPasses scanning isHook
  obtain ⟨isOk, outerOk, calling⟩ := inv.top isPasses
  obtain ⟨hooks, head, written, sameCore, sameLive, chain⟩ := inv.unlink isAfter isRead
  refine ⟨hooks, head, written, ?_⟩
  have nodup := inv.listNodup
  have found := (Hooks.read_some isRead).1
  have anchored : pass.anchor = pass.prev := by
    unfold Pass.anchor
    rw [scanning]
  have oldPending : pending s.passes = pending outer := by
    rw [isPasses]
    unfold pending Pass.pending
    rw [List.filterMap_cons, scanning]
    rfl
  have newPending : pending ({ pass with call := hook.fn, phase := .oneShot } :: outer) =
      id :: pending outer := by
    unfold pending Pass.pending
    rw [List.filterMap_cons]
    simp only [isHook, if_true]
  have bothNodup := inv.nodup
  rw [oldPending] at bothNodup
  exact
    { chain := chain
      nodup := by
        show (l.erase id ++
          pending ({ pass with call := hook.fn, phase := .oneShot } :: outer)).Nodup
        rw [newPending]
        have perm : (l ++ pending outer).Perm (l.erase id ++ id :: pending outer) := by
          have front := (List.perm_cons_erase member).append_right (pending outer)
          exact front.trans List.perm_middle.symm
        exact perm.nodup_iff.mp bothNodup
      live := by
        intro i
        show isLive hooks i = true ↔ i ∈ l.erase id ∨
          i ∈ pending ({ pass with call := hook.fn, phase := .oneShot } :: outer)
        rw [newPending, sameLive, inv.live i, oldPending, nodup.mem_erase_iff, List.mem_cons]
        by_cases same : i = id
        · rw [same]
          exact iff_of_true (Or.inl member) (Or.inr (Or.inl rfl))
        · simp only [same, ne_eq, not_false_eq_true, true_and, false_or]
      repeating := by
        intro i
        show isRepeating hooks i = true → _
        rw [isRepeating_core sameCore]
        intro repeating
        have differs : i ≠ id := by
          intro same
          unfold isRepeating at repeating
          rw [same, found, Option.any_some, decide_eq_true_iff] at repeating
          exact repeating once
        exact nodup.mem_erase_iff.mpr ⟨differs, inv.repeating i repeating⟩
      count := by
        intro i
        show isOneShot hooks i = true → ((id :: s.called.map Prod.fst)).count i = _
        rw [isOneShot_core sameCore]
        intro isOnce
        have count := inv.count i isOnce
        by_cases same : i = id
        · rw [same] at count ⊢
          rw [if_pos member] at count
          rw [List.count_cons_self, count, if_neg fun kept => (nodup.mem_erase_iff.mp kept).1 rfl]
        · rw [List.count_cons_of_ne (Ne.symm same), count]
          simp only [nodup.mem_erase_iff, same, ne_eq, not_false_eq_true, true_and]
      due := by
        intro i now called
        show now ≤ s.termMs ∧ isDue hooks now i = true
        rw [isDue_core sameCore]
        cases List.mem_cons.mp called with
        | inl isNew =>
          cases isNew
          refine ⟨inv.clocks isPasses rfl pass List.mem_cons_self, ?_⟩
          unfold isDue
          rw [found, Option.any_some]
          exact decide_eq_true ⟨once, isDue'⟩
        | inr old => exact inv.due i now old
      clock := inv.clocks isPasses rfl
      passes := by
        refine ⟨?_, outerOk.kept sameCore (fun _ _ behind => behind.erase nodup) calling⟩
        exact
          { waiting := by
              intro g waits
              show isDue hooks pass.now g = true
              rw [isDue_core sameCore]
              exact isOk.waiting g waits
            behind := by
              intro g waits
              have behind := isOk.behind g waits
              rw [anchored] at behind
              have isAnchor :
                  Pass.anchor { pass with call := hook.fn, phase := .oneShot } = pass.prev := by
                unfold Pass.anchor
                simp only
              rw [isAnchor]
              exact behind.erase nodup
            scan := fun absent => by cases absent
            repeats := fun absent => by cases absent
            oneShot := by
              intro _
              refine ⟨id, isHook, ?_⟩
              intro p isPrev
              rw [show pass.prev = _ from isPrev] at isAfter
              have isMember : p ∈ l := isAfter.mem
              obtain ⟨front, isList⟩ := isAfter
              have length := core_length sameCore
              refine ⟨?_, ?_, ?_⟩
              · show p < hooks.length
                rw [length]
                exact isLive_lt ((inv.live p).mpr (Or.inl isMember))
              · intro same
                rw [isList, same] at nodup
                have tail := (List.nodup_append.mp nodup).2.1
                exact (List.nodup_cons.mp tail).1 List.mem_cons_self
              · intro inOuter
                exact (List.nodup_append.mp bothNodup).2.2 p isMember p inOuter rfl }
      calling := calling }

theorem Inv.returnRepeating (repeats : pass.phase = .repeats) (isHook : pass.h = some id) :
    ∃ hook, s.read id = some hook ∧
      Inv { s with passes :=
        { pass with prev := .next id, h := hook.next, phase := .scan } :: outer } l := by
  have isOk := (inv.top isPasses).1
  obtain ⟨id', same, repeating⟩ := isOk.repeats repeats
  rw [isHook] at same
  cases same
  have member : id ∈ l := inv.repeating id repeating
  obtain ⟨hook, isRead⟩ := Hooks.read_live ((inv.live id).mpr (Or.inl member))
  have isNext : nextOf s.hooks id = hook.next := by
    unfold nextOf
    rw [(Hooks.read_some isRead).1]
    rfl
  have anchored : pass.anchor = .next id := by
    unfold Pass.anchor
    rw [repeats, isHook]
  refine ⟨hook, isRead, ?_⟩
  apply inv.moved isPasses
  · unfold Pass.pending
    rw [repeats]
    rfl
  · rfl
  · exact
      { waiting := isOk.waiting
        behind := by
          intro g waits
          have behind := isOk.behind g waits
          rw [anchored] at behind
          exact behind
        scan := by
          intro _
          obtain ⟨rest, isAfter⟩ := After.exists_of_mem member
          exact ⟨rest, isAfter, isNext ▸ inv.chain.after isAfter⟩
        repeats := fun absent => by cases absent
        oneShot := fun absent => by cases absent }

/-- The hook is freed when the callback of a one-shot hook returns; then `prev` is
followed, which needs that it is not in a freed hook itself. -/
theorem Inv.returnOneShot (calling : pass.phase = .oneShot) (isHook : pass.h = some id) :
    ∃ s', s.free id = some s' ∧ (s'.readLink pass.prev = none ↔ s.dangling pass.prev = true) ∧
      ∀ h, s'.readLink pass.prev = some h →
        Inv { s' with passes := { pass with h := h, phase := .scan } :: outer } l := by
  obtain ⟨isOk, outerOk, outerCalling⟩ := inv.top isPasses
  obtain ⟨id', same, inside⟩ := isOk.oneShot calling
  rw [isHook] at same
  cases same
  have isPending : pending s.passes = id :: pending outer := by
    rw [isPasses]
    unfold pending Pass.pending
    rw [List.filterMap_cons, calling]
    simp only [isHook, if_true]
  have nodup := inv.nodup
  rw [isPending] at nodup
  have parts := List.nodup_append.mp nodup
  have notListed : id ∉ l := fun member => parts.2.2 id member id List.mem_cons_self rfl
  have notOuter : id ∉ pending outer := (List.nodup_cons.mp parts.2.1).1
  have isLive' : isLive s.hooks id = true := by
    rw [inv.live id, isPending]
    exact Or.inr List.mem_cons_self
  obtain ⟨hook, isRead⟩ := Hooks.read_live isLive'
  obtain ⟨found, _⟩ := Hooks.read_some isRead
  obtain ⟨less, _⟩ := List.getElem?_eq_some_iff.mp found
  have freed : s.free id = some (s.store id { hook with freed := true }) := by
    unfold Hooks.free
    rw [isRead]
    rfl
  have sameCore : (s.hooks.set id { hook with freed := true }).map HtkHook.core =
      s.hooks.map HtkHook.core := core_set found rfl
  have sameNext (i : Nat) :
      nextOf (s.hooks.set id { hook with freed := true }) i = nextOf s.hooks i := by
    rw [nextOf_set less]
    split
    next same =>
      rw [same]
      unfold nextOf
      rw [found]
      rfl
    · rfl
  have chain : Chain (nextOf (s.hooks.set id { hook with freed := true })) s.htkHooks l :=
    inv.chain.congr fun i _ => sameNext i
  have reads (p : Nat) (differs : p ≠ id) :
      (s.store id { hook with freed := true }).read p = s.read p := by
    unfold Hooks.read Hooks.store
    rw [List.getElem?_set, if_neg (Ne.symm differs)]
  refine ⟨_, freed, ?_, ?_⟩
  · cases isPrev : pass.prev with
    | head => exact iff_of_false (fun absent => by cases absent) (fun absent => by cases absent)
    | next p =>
      have differs := (inside p isPrev).2.1
      unfold Hooks.readLink Hooks.dangling
      dsimp only
      rw [reads p differs, Option.map_eq_none_iff, Option.isNone_iff_eq_none]
  · intro h isLink
    have goesOn : ∃ rest, After l pass.prev rest ∧
        Chain (nextOf (s.hooks.set id { hook with freed := true })) h rest := by
      cases isPrev : pass.prev with
      | head =>
        rw [isPrev] at isLink
        cases isLink
        exact ⟨l, rfl, chain⟩
      | next p =>
        obtain ⟨_, differs, notIn⟩ := inside p isPrev
        rw [isPrev] at isLink
        unfold Hooks.readLink at isLink
        dsimp only at isLink
        rw [reads p differs] at isLink
        obtain ⟨before, isBefore, isNext⟩ := Option.map_eq_some_iff.mp isLink
        obtain ⟨isFound, notFreed⟩ := Hooks.read_some isBefore
        have live : isLive s.hooks p = true := by
          unfold isLive
          rw [isFound, Option.any_some, notFreed]
          rfl
        have member : p ∈ l := by
          have places := (inv.live p).mp live
          rw [isPending, List.mem_cons] at places
          rcases places with listed | isSame | inOuter
          · exact listed
          · exact absurd isSame differs
          · exact absurd inOuter notIn
        obtain ⟨rest, isAfter⟩ := After.exists_of_mem member
        have isValue : nextOf (s.hooks.set id { hook with freed := true }) p = h := by
          rw [sameNext]
          unfold nextOf
          rw [isFound, ← isNext]
          rfl
        exact ⟨rest, isAfter, isValue ▸ chain.after isAfter⟩
    have newPending : pending ({ pass with h := h, phase := .scan } :: outer) =
        pending outer := by
      unfold pending Pass.pending
      rw [List.filterMap_cons]
      rfl
    have anchored : pass.anchor = pass.prev := by
      unfold Pass.anchor
      rw [calling]
    exact
      { chain := chain
        nodup := by
          show (l ++ pending ({ pass with h := h, phase := .scan } :: outer)).Nodup
          rw [newPending]
          exact nodup.sublist ((List.sublist_cons_self _ _).append_left l)
        live := by
          intro i
          show isLive (s.hooks.set id { hook with freed := true }) i = true ↔ i ∈ l ∨
            i ∈ pending ({ pass with h := h, phase := .scan } :: outer)
          rw [newPending, isLive_set less]
          by_cases same : i = id
          · rw [if_pos same, same]
            exact iff_of_false (fun absent => by cases absent)
              (fun places => places.elim notListed notOuter)
          · rw [if_neg same, inv.live i, isPending, List.mem_cons]
            simp only [same, false_or]
        repeating := (inv.recored sameCore).1
        count := (inv.recored sameCore).2.1
        due := (inv.recored sameCore).2.2
        clock := inv.clocks isPasses rfl
        passes := by
          refine ⟨?_, outerOk.kept sameCore (fun _ _ behind => behind) outerCalling⟩
          exact
            { waiting := by
                intro g waits
                show isDue (s.hooks.set id { hook with freed := true }) pass.now g = true
                rw [isDue_core sameCore]
                exact isOk.waiting g waits
              behind := by
                intro g waits
                have behind := isOk.behind g waits
                rw [anchored] at behind
                exact behind
              scan := fun _ => goesOn
              repeats := fun absent => by cases absent
              oneShot := fun absent => by cases absent }
        calling := outerCalling }

end Passes

end Aholyc.Htk
