import Aholyc.Htk.HookPasses

/-!
# Runs of hooks

Every step keeps the invariant or follows a link out of a freed hook, and the invariant says
what `HtkRunHooks` owes to the hooks: none is called twice or before its time, none is lost,
and each is freed after its call.
-/

namespace Aholyc.Htk

open Aholyc.Lib

/-! ## Runs keep the invariant -/

section Runs

variable {s : Hooks} {l : List Nat}

theorem Inv.advance (inv : Inv s l) : ∃ s' l', advance s = some s' ∧ Inv s' l' := by
  unfold Htk.advance
  cases isPasses : s.passes with
  | nil => exact ⟨s, l, rfl, inv⟩
  | cons pass outer =>
    dsimp only
    by_cases scanning : pass.phase = .scan
    · rw [if_neg (not_not.mpr scanning)]
      cases isHook : pass.h with
      | none =>
        have idle : pass.phase ≠ .oneShot := by
          rw [scanning]
          decide
        exact ⟨_, l, rfl, inv.pop isPasses idle⟩
      | some id =>
        obtain ⟨_, hook, _, _, _, isRead⟩ := inv.scanning isPasses scanning isHook
        unfold visit
        dsimp only
        rw [isRead, Option.bind_some]
        by_cases due : hook.due ≤ pass.now
        · rw [if_pos due]
          by_cases once : hook.ms = 0
          · obtain ⟨hooks, head, written, after⟩ :=
              inv.callOneShot isPasses scanning isHook isRead once due
            rw [if_neg (not_not.mpr once), written]
            exact ⟨_, _, rfl, after⟩
          · rw [if_pos once]
            exact ⟨_, l, rfl, inv.callRepeating isPasses scanning isHook isRead once _⟩
        · have notWaiting : id ∉ pass.waiting := by
            intro waits
            have isDue' := (inv.top isPasses).1.waiting id waits
            unfold isDue at isDue'
            rw [(Hooks.read_some isRead).1, Option.any_some, decide_eq_true_iff] at isDue'
            exact due isDue'.2
          rw [if_neg due]
          exact ⟨_, l, rfl, inv.goOver isPasses scanning isHook notWaiting isRead⟩
    · rw [if_pos scanning]
      exact ⟨s, l, rfl, inv⟩

theorem Inv.finish (inv : Inv s l) :
    (returnsDangling s .finish = true ∧ finish s = none) ∨
      (returnsDangling s .finish = false ∧ ∃ s' l', finish s = some s' ∧ Inv s' l') := by
  unfold Htk.finish returnsDangling
  cases isPasses : s.passes with
  | nil => exact Or.inr ⟨rfl, s, l, rfl, inv⟩
  | cons pass outer =>
    rw [List.head?_cons, Option.any_some]
    cases phase : pass.phase with
    | scan =>
      refine Or.inr ⟨rfl, s, l, ?_, inv⟩
      dsimp only
      rw [phase]
    | repeats =>
      obtain ⟨id, isHook, _⟩ := (inv.top isPasses).1.repeats phase
      obtain ⟨hook, isRead, after⟩ := inv.returnRepeating isPasses phase isHook
      refine Or.inr ⟨rfl, _, l, ?_, after⟩
      dsimp only
      rw [phase, isHook]
      dsimp only
      rw [isRead]
      rfl
    | oneShot =>
      obtain ⟨id, isHook, _⟩ := (inv.top isPasses).1.oneShot phase
      obtain ⟨s', freed, dangles, after⟩ := inv.returnOneShot isPasses phase isHook
      dsimp only
      rw [phase, isHook]
      dsimp only
      rw [freed, Option.bind_some]
      cases isLink : s'.readLink pass.prev with
      | none =>
        refine Or.inl ⟨?_, rfl⟩
        exact decide_eq_true ⟨rfl, dangles.mp isLink⟩
      | some h =>
        have steady : s.dangling pass.prev = false := by
          apply Bool.eq_false_iff.mpr
          intro dangling
          rw [dangles.mpr dangling] at isLink
          cases isLink
        refine Or.inr ⟨?_, _, l, rfl, after h isLink⟩
        simp [steady]

/-- A step fails exactly when a callback returns to a dangling `prev`. -/
theorem hookStep_inv (inv : Inv s l) (action : HookAction) (done : leavesOwing s action = false) :
    (returnsDangling s action = true ∧ hookStep s action = none) ∨
      (returnsDangling s action = false ∧ ∃ s' l', hookStep s action = some s' ∧ Inv s' l') := by
  cases action with
  | tick ms => exact Or.inr ⟨rfl, _, l, rfl, inv.tick ms⟩
  | hookAdd granted delayMs repeatMs fn a b =>
    refine Or.inr ⟨rfl, ?_⟩
    dsimp only [hookStep]
    split
    next user =>
      cases granted with
      | true => exact ⟨_, _, rfl, inv.add user delayMs repeatMs fn a b⟩
      | false => exact ⟨s, l, rfl, inv⟩
    · exact ⟨s, l, rfl, inv⟩
  | runHooks =>
    refine Or.inr ⟨rfl, ?_⟩
    dsimp only [hookStep]
    split
    next user => exact ⟨_, l, rfl, inv.startPass user⟩
    · exact ⟨s, l, rfl, inv⟩
  | advance => exact Or.inr ⟨rfl, inv.advance⟩
  | finish => exact inv.finish
  | throw depth =>
    refine Or.inr ⟨rfl, _, l, rfl, ?_⟩
    split
    next user =>
      apply inv.leave
      intro pass member once
      have owing : leavesOwing s (.throw depth) = true := by
        have owes : (s.passes.take depth).any (Pass.owes s.called) = true :=
          List.any_eq_true.mpr ⟨pass, member, by simp [Pass.owes, once]⟩
        simp only [leavesOwing, user, owes, Bool.and_self]
      rw [owing] at done
      cases done
    · exact inv

theorem hookRun_inv (inv : Inv s l) (actions : List HookAction)
    (done : meets leavesOwing s actions = false) :
    (meets returnsDangling s actions = true ∧ hookRun s actions = none) ∨
      (meets returnsDangling s actions = false ∧
        ∃ s' l', hookRun s actions = some s' ∧ Inv s' l') := by
  induction actions generalizing s l with
  | nil => exact Or.inr ⟨rfl, s, l, rfl, inv⟩
  | cons action actions ih =>
    unfold meets at done ⊢
    unfold hookRun
    rw [Bool.or_eq_false_iff] at done
    cases hookStep_inv inv action done.1 with
    | inl fails =>
      rw [fails.1, fails.2]
      exact Or.inl ⟨rfl, rfl⟩
    | inr goesOn =>
      obtain ⟨steady, s', l', stepped, inv'⟩ := goesOn
      rw [stepped, Option.any_some] at done
      rw [steady, stepped, Bool.false_or, Option.any_some, Option.bind_some]
      exact ih inv' done.2

theorem noHooks_inv (termMs : Nat) : Inv (noHooks termMs) [] :=
  { chain := rfl
    nodup := List.nodup_nil
    live := fun id => iff_of_false (fun absent => by cases absent)
      (fun places => by cases places with | inl absent => cases absent | inr absent => cases absent)
    repeating := fun id absent => by cases absent
    count := fun id absent => by cases absent
    due := fun id now absent => by cases absent
    clock := fun pass absent => by cases absent
    passes := trivial
    calling := fun pass absent => by cases absent }

end Runs

/-! ## Times -/

/-- A one-shot hook is due at the time it was asked for. -/
structure Timely (s : Hooks) : Prop where
  clock : 0 ≤ s.termMs
  due : ∀ core ∈ s.hooks.map HtkHook.core, core.1 = 0 → core.2.2 = some core.2.1

def KeepsTimes (s s' : Hooks) : Prop :=
  s'.hooks.map HtkHook.core = s.hooks.map HtkHook.core ∧ s.termMs ≤ s'.termMs

variable {s' : Hooks} {id : Nat}

theorem KeepsTimes.timely {s : Hooks} (keeps : KeepsTimes s s') (timely : Timely s) :
    Timely s' := by
  have clock := timely.clock
  have later := keeps.2
  refine ⟨by omega, ?_⟩
  rw [keeps.1]
  exact timely.due

theorem writeLink_times {s : Hooks} {value : Option Nat} {link : Link Nat}
    (written : s.writeLink value link = some s') : KeepsTimes s s' := by
  cases link with
  | head =>
    cases written
    exact ⟨rfl, Int.le_refl _⟩
  | next p =>
    obtain ⟨hook, isRead, rfl⟩ := Option.map_eq_some_iff.mp written
    exact ⟨core_set (Hooks.read_some isRead).1 rfl, Int.le_refl _⟩

theorem visit_times {s : Hooks} {pass : Pass} {outer : List Pass}
    (visited : visit s pass outer id = some s') : KeepsTimes s s' := by
  obtain ⟨hook, isRead, next⟩ := Option.bind_eq_some_iff.mp visited
  have isHook := (Hooks.read_some isRead).1
  split at next
  · split at next
    next repeating =>
      cases next
      refine ⟨core_set isHook ?_, Int.le_refl _⟩
      simp only [HtkHook.core, repeating, if_false]
    · obtain ⟨s'', written, rfl⟩ := Option.map_eq_some_iff.mp next
      have keeps : KeepsTimes s s'' := writeLink_times written
      exact keeps
  · cases next
    exact ⟨rfl, Int.le_refl _⟩

theorem advance_times {s : Hooks} (advanced : advance s = some s') : KeepsTimes s s' := by
  unfold advance at advanced
  split at advanced
  · cases advanced
    exact ⟨rfl, Int.le_refl _⟩
  split at advanced
  · cases advanced
    exact ⟨rfl, Int.le_refl _⟩
  split at advanced
  · cases advanced
    exact ⟨rfl, Int.le_refl _⟩
  · exact visit_times advanced

theorem finish_times {s : Hooks} (finished : finish s = some s') : KeepsTimes s s' := by
  unfold finish at finished
  split at finished
  · cases finished
    exact ⟨rfl, Int.le_refl _⟩
  split at finished
  · obtain ⟨hook, _, rfl⟩ := Option.map_eq_some_iff.mp finished
    exact ⟨rfl, Int.le_refl _⟩
  · obtain ⟨s'', freed, linked⟩ := Option.bind_eq_some_iff.mp finished
    obtain ⟨hook, isRead, rfl⟩ := Option.map_eq_some_iff.mp freed
    obtain ⟨h, _, rfl⟩ := Option.map_eq_some_iff.mp linked
    exact ⟨core_set (Hooks.read_some isRead).1 rfl, Int.le_refl _⟩
  · cases finished
    exact ⟨rfl, Int.le_refl _⟩

/-- A time that is a word is the time the hook is due. -/
theorem add_timely {s : Hooks} (timely : Timely s) {delayMs : Nat} (repeatMs : Int) (fn : Nat)
    (a b : Int) (fits : s.termMs + delayMs < 9223372036854775808) :
    Timely (linked delayMs repeatMs fn a b s) := by
  have clock := timely.clock
  refine ⟨clock, ?_⟩
  intro core member once
  unfold linked at member
  rw [List.map_append, List.mem_append] at member
  cases member with
  | inl old => exact timely.due core old once
  | inr new =>
    rw [List.map_singleton, List.mem_singleton] at new
    rw [new] at once ⊢
    simp only [HtkHook.core] at once ⊢
    rw [if_pos once, i64_of_word (by omega) fits]

theorem hookStep_timely {s : Hooks} {action : HookAction} (timely : Timely s)
    (fits : wraps s action = false) (stepped : hookStep s action = some s') : Timely s' := by
  cases action with
  | tick ms =>
    cases stepped
    have keeps : KeepsTimes s { s with termMs := s.termMs + ms } :=
      ⟨rfl, show s.termMs ≤ s.termMs + ms by omega⟩
    exact keeps.timely timely
  | hookAdd granted delayMs repeatMs fn a b =>
    dsimp only [hookStep] at stepped
    split at stepped
    · cases stepped
      cases granted with
      | true =>
        apply add_timely timely
        simpa [wraps] using fits
      | false => exact timely
    · cases stepped
      exact timely
  | runHooks =>
    dsimp only [hookStep] at stepped
    split at stepped
    · cases stepped
      have keeps : KeepsTimes s (startPass s) := ⟨rfl, Int.le_refl _⟩
      exact keeps.timely timely
    · cases stepped
      exact timely
  | advance => exact (advance_times stepped).timely timely
  | finish => exact (finish_times stepped).timely timely
  | throw depth =>
    cases stepped
    split
    · have keeps : KeepsTimes s { s with passes := s.passes.drop depth } := ⟨rfl, Int.le_refl _⟩
      exact keeps.timely timely
    · exact timely

/-! ## What the passes owe -/

/-- What holds of the hooks in every state that is reached. -/
structure Kept (s : Hooks) : Prop where
  /-- The list ends, has no hook twice, and has every repeating hook and every hook that is
  not yet due. -/
  list : ∃ l, Chain (nextOf s.hooks) s.htkHooks l ∧ l.Nodup ∧
    (∀ id ∈ l, isLive s.hooks id = true) ∧ (∀ id, isRepeating s.hooks id = true → id ∈ l) ∧
    ∀ id hook, s.hooks[id]? = some hook → s.termMs < hook.time → id ∈ l
  /-- A one-shot hook is called once at most, and at its time. -/
  once : ∀ id, isOneShot s.hooks id = true → (s.called.map Prod.fst).count id ≤ 1
  onTime : ∀ id now, (id, now) ∈ s.called → now ≤ s.termMs ∧
    ∃ hook, s.hooks[id]? = some hook ∧ hook.ms = 0 ∧ hook.time ≤ now
  /-- What is freed is a one-shot hook that was called, and what was called is freed when
  the call is over. -/
  freed : ∀ id hook, s.hooks[id]? = some hook → hook.freed = true →
    hook.ms = 0 ∧ id ∈ s.called.map Prod.fst
  frees : ∀ id ∈ s.called.map Prod.fst, isLive s.hooks id = false ∨
    ∃ pass ∈ s.passes, pass.phase = .oneShot ∧ pass.h = some id
  /-- At the end of a pass, the hooks that were due when it started have been called. -/
  ended : ∀ pass outer, s.passes = pass :: outer → pass.phase = .scan → pass.h = none →
    ∀ id ∈ pass.waiting, id ∈ s.called.map Prod.fst

theorem isOneShot_of_isDue {hooks : List HtkHook} {now : Int} (due : isDue hooks now id = true) :
    isOneShot hooks id = true := by
  unfold isDue at due
  unfold isOneShot
  cases isHook : hooks[id]? with
  | none =>
    rw [isHook] at due
    cases due
  | some hook =>
    rw [isHook, Option.any_some, decide_eq_true_iff] at due
    rw [Option.any_some]
    exact decide_eq_true due.1

section

variable {s : Hooks} {l : List Nat} (inv : Inv s l)

include inv

theorem Inv.called_of_gone (once : isOneShot s.hooks id = true) (gone : id ∉ l) :
    id ∈ s.called.map Prod.fst := by
  have count := inv.count id once
  rw [if_neg gone] at count
  rw [← List.count_pos_iff, count]
  exact Nat.one_pos

theorem Inv.onTime (timely : Timely s) {now : Int} (called : (id, now) ∈ s.called) :
    now ≤ s.termMs ∧ ∃ hook, s.hooks[id]? = some hook ∧ hook.ms = 0 ∧ hook.time ≤ now := by
  obtain ⟨before, due⟩ := inv.due id now called
  refine ⟨before, ?_⟩
  unfold isDue at due
  cases isHook : s.hooks[id]? with
  | none =>
    rw [isHook] at due
    cases due
  | some hook =>
    rw [isHook, Option.any_some, decide_eq_true_iff] at due
    have same := timely.due hook.core
      (List.mem_map_of_mem (List.mem_of_getElem? isHook)) due.1
    simp only [HtkHook.core] at same
    rw [if_pos due.1] at same
    have isTime := Option.some.inj same
    exact ⟨hook, rfl, due.1, isTime ▸ due.2⟩

theorem Inv.kept (timely : Timely s) : Kept s := by
  have oneShot (id : Nat) {hook : HtkHook} (isHook : s.hooks[id]? = some hook)
      (once : hook.ms = 0) : isOneShot s.hooks id = true := by
    unfold isOneShot
    rw [isHook, Option.any_some]
    exact decide_eq_true once
  have repeats (id : Nat) {hook : HtkHook} (isHook : s.hooks[id]? = some hook)
      (repeating : hook.ms ≠ 0) : id ∈ l := by
    apply inv.repeating
    unfold isRepeating
    rw [isHook, Option.any_some]
    exact decide_eq_true repeating
  exact
    { list := by
        refine ⟨l, inv.chain, inv.listNodup, fun id member => (inv.live id).mpr (Or.inl member),
          inv.repeating, ?_⟩
        intro id hook isHook early
        by_cases once : hook.ms = 0
        · by_contra gone
          have called := inv.called_of_gone (oneShot id isHook once) gone
          obtain ⟨call, isCall, same⟩ := List.mem_map.mp called
          obtain ⟨before, hook', isHook', _, late⟩ := inv.onTime timely
            (show (call.1, call.2) ∈ s.called from isCall)
          rw [same, isHook] at isHook'
          cases isHook'
          omega
        · exact repeats id isHook once
      once := by
        intro id once
        rw [inv.count id once]
        split <;> omega
      onTime := fun id now called => inv.onTime timely called
      freed := by
        intro id hook isHook isFreed
        have dead : isLive s.hooks id = false := by
          unfold isLive
          rw [isHook, Option.any_some, isFreed]
          rfl
        have gone : id ∉ l := by
          intro member
          rw [(inv.live id).mpr (Or.inl member)] at dead
          cases dead
        have once : hook.ms = 0 := by
          by_contra repeating
          exact gone (repeats id isHook repeating)
        exact ⟨once, inv.called_of_gone (oneShot id isHook once) gone⟩
      frees := by
        intro id called
        obtain ⟨call, isCall, same⟩ := List.mem_map.mp called
        have due := (inv.due call.1 call.2 isCall).2
        rw [same] at due
        have once := isOneShot_of_isDue due
        have gone : id ∉ l := by
          intro member
          have count := inv.count id once
          rw [if_pos member, List.count_eq_zero] at count
          exact count called
        by_cases live : isLive s.hooks id = true
        · right
          have inCall := ((inv.live id).mp live).resolve_left gone
          obtain ⟨pass, member, isPending⟩ := List.mem_filterMap.mp inCall
          unfold Pass.pending at isPending
          split at isPending
          next phase => exact ⟨pass, member, phase, isPending⟩
          · cases isPending
        · exact Or.inl (Bool.eq_false_iff.mpr live)
      ended := by
        intro pass outer isPasses scanning isEnd id waits
        obtain ⟨isOk, _, _⟩ := inv.top isPasses
        obtain ⟨rest, isAfter, chain⟩ := isOk.scan scanning
        have isNil : rest = [] := by
          rw [isEnd] at chain
          cases rest with
          | nil => rfl
          | cons id' rest => cases chain.1
        have anchored : pass.anchor = pass.prev := by
          unfold Pass.anchor
          rw [scanning]
        have behind := isOk.behind id waits
        rw [anchored] at behind
        apply inv.called_of_gone (isOneShot_of_isDue (isOk.waiting id waits))
        intro member
        have inRest := behind.mem_rest isAfter inv.listNodup member
        rw [isNil] at inRest
        cases inRest }

theorem hookRun_kept (timely : Timely s) {actions : List HookAction}
    (steady : meets isUnsteady s actions = false) :
    ∀ before, before <+: actions → ∃ s', hookRun s before = some s' ∧ Kept s' := by
  induction actions generalizing s l with
  | nil =>
    intro before isPrefix
    rw [List.prefix_nil.mp isPrefix]
    exact ⟨s, rfl, inv.kept timely⟩
  | cons action actions ih =>
    intro before isPrefix
    unfold meets at steady
    rw [Bool.or_eq_false_iff] at steady
    obtain ⟨calm, later⟩ := steady
    unfold isUnsteady at calm
    rw [Bool.or_eq_false_iff, Bool.or_eq_false_iff] at calm
    obtain ⟨⟨safe, fits⟩, done⟩ := calm
    cases hookStep_inv inv action done with
    | inl fails =>
      rw [fails.1] at safe
      cases safe
    | inr goesOn =>
      obtain ⟨_, s', l', stepped, inv'⟩ := goesOn
      rw [stepped, Option.any_some] at later
      cases before with
      | nil => exact ⟨s, rfl, inv.kept timely⟩
      | cons first rest =>
        obtain ⟨rfl, restPrefix⟩ := List.cons_prefix_cons.mp isPrefix
        unfold hookRun
        rw [stepped, Option.bind_some]
        exact ih inv' (hookStep_timely timely fits stepped) later rest restPrefix

end

/-- A run in which no exception leaves a pass that still owes something touches a freed hook
if and only if a one-shot callback returns to a pass whose `prev` is in a freed hook. In a run
without either and without a time that is no word, every state that is reached keeps the
hooks. -/
theorem htkRunHooks_survives (termMs : Nat) :
    (∀ actions, meets leavesOwing (noHooks termMs) actions = false →
      (hookRun (noHooks termMs) actions = none ↔
        meets returnsDangling (noHooks termMs) actions = true)) ∧
    ∀ actions, meets isUnsteady (noHooks termMs) actions = false → ∀ before, before <+: actions →
      ∃ s, hookRun (noHooks termMs) before = some s ∧ Kept s := by
  have inv := noHooks_inv termMs
  have timely : Timely (noHooks termMs) :=
    ⟨Int.natCast_nonneg termMs, fun core absent => by cases absent⟩
  constructor
  · intro actions done
    cases hookRun_inv inv actions done with
    | inl fails => exact iff_of_true fails.2 fails.1
    | inr goesOn =>
        obtain ⟨safe, s', _, ended, _⟩ := goesOn
        rw [ended, safe]
        exact iff_of_false (fun absent => by cases absent) Bool.false_ne_true
  · intro actions steady
    exact hookRun_kept inv timely steady

/-- A repeating hook, whose callback gets no memory for another one and catches that, and a
one-shot hook, whose callback adds it anew. -/
def rearmingRun : List HookAction :=
  [.hookAdd true 5 0 1 0 0, .hookAdd true 0 20 1 0 0, .tick 5, .runHooks, .advance,
    .hookAdd false 5 0 1 0 0, .throw 0, .finish, .advance, .hookAdd true 5 0 1 0 0, .finish,
    .advance]

theorem htkRunHooks_survives_rearming : ∃ s, hookRun (noHooks 0) rearmingRun = some s ∧ Kept s :=
  (htkRunHooks_survives 0).2 rearmingRun (by decide +kernel) rearmingRun (List.prefix_refl _)

/-- The first hook is due in 10 ms and the second at once. The callback of the second runs a
pass when the first is due as well, and the outer pass then follows its link. -/
def nestedRun : List HookAction :=
  [.hookAdd true 0 0 1 0 0, .hookAdd true 10 0 1 0 0, .runHooks, .advance, .advance, .tick 10,
    .runHooks, .advance, .finish, .advance, .finish]

theorem nested_pass_frees_link : ¬∀ (termMs : Nat) (actions : List HookAction),
    ∃ s, hookRun (noHooks termMs) actions = some s ∧ Kept s := by
  intro always
  obtain ⟨s, ended, _⟩ := always 0 nestedRun
  have fails : hookRun (noHooks (0 : Nat)) nestedRun = none := by decide +kernel
  rw [fails] at ended
  cases ended

end Aholyc.Htk
