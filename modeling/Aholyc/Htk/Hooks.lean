import Aholyc.Htk.Bounds
import Aholyc.Lib.Chain

/-!
# Timer hooks

`HtkHookAdd` and `HtkRunHooks` of lib/htk/loop.hc. A pass over the hooks stops at
each call and goes on when the callback returns; in between the callback adds hooks
and runs passes of its own, and time goes on. An exception leaves the passes up to the
callback that catches it. A step has no result where it reads or writes a hook that has
been freed.
-/

namespace Aholyc.Htk

open Aholyc.Lib

/-- The hooks that were ever allocated are numbered, and no number is used twice.
`freed`, and the time the hook was asked for, are not fields of the source. -/
structure HtkHook where
  due : Int
  ms : Int
  fn : Nat
  a : Int
  b : Int
  next : Option Nat
  freed : Bool
  time : Int
  deriving DecidableEq

/-- Where a pass is: between two hooks, or in the call of one. -/
inductive Phase
  | scan
  | oneShot
  | repeats
  deriving DecidableEq

/-- The variables of `HtkRunHooks`. `waiting` is for the proof: the one-shot hooks that
were due and in the list when the pass started. -/
structure Pass where
  now : Int
  h : Option Nat
  prev : Link Nat
  call : Nat
  phase : Phase
  waiting : List Nat
  deriving DecidableEq

/-- The passes are nested, the innermost first. `called` has the one-shot hooks that were
called, each with the `now` of the pass; `NULL` counts as a function that does nothing. -/
structure Hooks where
  hooks : List HtkHook
  htkHooks : Option Nat
  termMs : Int
  passes : List Pass
  called : List (Nat × Int)
  deriving DecidableEq

/-! ## Reading and writing -/

def Hooks.read (s : Hooks) (id : Nat) : Option HtkHook :=
  s.hooks[id]?.bind fun hook => if hook.freed then none else some hook

def Hooks.store (s : Hooks) (id : Nat) (hook : HtkHook) : Hooks :=
  { s with hooks := s.hooks.set id hook }

def Hooks.readLink (s : Hooks) : Link Nat → Option (Option Nat)
  | .head => some s.htkHooks
  | .next p => (s.read p).map (·.next)

def Hooks.writeLink (s : Hooks) (value : Option Nat) : Link Nat → Option Hooks
  | .head => some { s with htkHooks := value }
  | .next p => (s.read p).map fun hook => s.store p { hook with next := value }

def Hooks.free (s : Hooks) (id : Nat) : Option Hooks :=
  (s.read id).map fun hook => s.store id { hook with freed := true }

/-! ## The functions -/

def linked (delayMs : Nat) (repeatMs : Int) (fn : Nat) (a b : Int) (s : Hooks) : Hooks :=
  { s with
    hooks := s.hooks ++ [⟨i64 (s.termMs + delayMs), repeatMs, fn, a, b, s.htkHooks, false,
      s.termMs + delayMs⟩]
    htkHooks := some s.hooks.length }

/-- `none` is the exception of `CAlloc`, which comes before anything is changed. -/
def htkHookAdd (granted : Bool) (delayMs : Nat) (repeatMs : Int) (fn : Nat) (a b : Int)
    (s : Hooks) : Option Hooks :=
  if granted then some (linked delayMs repeatMs fn a b s) else none

def listed (hooks : List HtkHook) : Nat → Option Nat → List Nat
  | 0, _ => []
  | _ + 1, none => []
  | fuel + 1, some id => id :: listed hooks fuel (hooks[id]?.bind (·.next))

def isDue (hooks : List HtkHook) (now : Int) (id : Nat) : Bool :=
  hooks[id]?.any fun hook => hook.ms = 0 ∧ hook.due ≤ now

def startPass (s : Hooks) : Hooks :=
  { s with passes :=
      { now := s.termMs, h := s.htkHooks, prev := .head, call := 0, phase := .scan
        waiting := (listed s.hooks s.hooks.length s.htkHooks).filter (isDue s.hooks s.termMs) } ::
      s.passes }

def visit (s : Hooks) (pass : Pass) (outer : List Pass) (id : Nat) : Option Hooks :=
  (s.read id).bind fun hook =>
    if hook.due ≤ pass.now then
      if hook.ms ≠ 0 then
        some { s.store id { hook with due := i64 (pass.now + hook.ms) } with
          passes := { pass with call := hook.fn, phase := .repeats } :: outer }
      else
        (s.writeLink hook.next pass.prev).map fun s => { s with
          passes := { pass with call := hook.fn, phase := .oneShot } :: outer
          called := (id, pass.now) :: s.called }
    else
      some { s with passes := { pass with prev := .next id, h := hook.next } :: outer }

def advance (s : Hooks) : Option Hooks :=
  match s.passes with
  | [] => some s
  | pass :: outer =>
    if pass.phase ≠ .scan then some s
    else
      match pass.h with
      | none => some { s with passes := outer }
      | some id => visit s pass outer id

def finish (s : Hooks) : Option Hooks :=
  match s.passes with
  | [] => some s
  | pass :: outer =>
    match pass.phase, pass.h with
    | .repeats, some id => (s.read id).map fun hook =>
      { s with passes := { pass with prev := .next id, h := hook.next, phase := .scan } :: outer }
    | .oneShot, some id => (s.free id).bind fun s => (s.readLink pass.prev).map fun h =>
      { s with passes := { pass with h := h, phase := .scan } :: outer }
    | _, _ => some s

/-! ## Runs -/

/-- What can happen: `TermMs` goes on, a callback or the program adds a hook or starts a
pass, a pass goes on, a callback returns, or an exception leaves callbacks and with them the
innermost passes, `depth` of them. What is not possible changes nothing. -/
inductive HookAction
  | tick (ms : Nat)
  | hookAdd (granted : Bool) (delayMs : Nat) (repeatMs : Int) (fn : Nat) (a b : Int)
  | runHooks
  | advance
  | finish
  | throw (depth : Nat)

def Hooks.userCode (s : Hooks) : Bool :=
  s.passes.head?.all fun pass => pass.phase ≠ .scan ∧ pass.call ≠ 0

def hookStep (s : Hooks) : HookAction → Option Hooks
  | .tick ms => some { s with termMs := s.termMs + ms }
  -- where the exception of a refused one goes, a `throw` says
  | .hookAdd granted delayMs repeatMs fn a b =>
    if s.userCode then some ((htkHookAdd granted delayMs repeatMs fn a b s).getD s) else some s
  | .runHooks => if s.userCode then some (startPass s) else some s
  | .advance => advance s
  | .finish => finish s
  | .throw depth => some (if s.userCode then { s with passes := s.passes.drop depth } else s)

def hookRun (s : Hooks) : List HookAction → Option Hooks
  | [] => some s
  | action :: actions => (hookStep s action).bind fun s => hookRun s actions

def noHooks (termMs : Int) : Hooks := ⟨[], none, termMs, [], []⟩

/-! ## The condition -/

def Hooks.dangling (s : Hooks) : Link Nat → Bool
  | .head => false
  | .next p => (s.read p).isNone

/-- A one-shot callback returns to a pass whose `prev` is in a freed hook. -/
def returnsDangling (s : Hooks) : HookAction → Bool
  | .finish => s.passes.head?.any fun pass => pass.phase = .oneShot ∧ s.dangling pass.prev
  | _ => false

def wraps (s : Hooks) : HookAction → Bool
  | .hookAdd _ delayMs _ _ _ _ => s.termMs + delayMs ≥ 9223372036854775808
  | _ => false

/-- The pass has called a hook that it has not freed, or has not yet called one that was due. -/
def Pass.owes (called : List (Nat × Int)) (pass : Pass) : Bool :=
  pass.phase = .oneShot || pass.waiting.any fun id => id ∉ called.map Prod.fst

/-- An exception leaves a pass that is not done. -/
def leavesOwing (s : Hooks) : HookAction → Bool
  | .throw depth => s.userCode && (s.passes.take depth).any (Pass.owes s.called)
  | _ => false

def isUnsteady (s : Hooks) (action : HookAction) : Bool :=
  returnsDangling s action || wraps s action || leavesOwing s action

/-- Some step of the run is `bad` in the state it starts from. -/
def meets (bad : Hooks → HookAction → Bool) (s : Hooks) : List HookAction → Bool
  | [] => false
  | action :: actions => bad s action || (hookStep s action).any fun s => meets bad s actions

/-! ## Hooks by number -/

/-- What never changes of a hook; the time a repeating one is due does. -/
def HtkHook.core (hook : HtkHook) : Int × Int × Option Int :=
  (hook.ms, hook.time, if hook.ms = 0 then some hook.due else none)

def nextOf (hooks : List HtkHook) (id : Nat) : Option Nat := hooks[id]?.bind (·.next)

def isLive (hooks : List HtkHook) (id : Nat) : Bool := hooks[id]?.any fun hook => !hook.freed

def isRepeating (hooks : List HtkHook) (id : Nat) : Bool := hooks[id]?.any fun hook => hook.ms ≠ 0

def isOneShot (hooks : List HtkHook) (id : Nat) : Bool := hooks[id]?.any fun hook => hook.ms = 0

section Lookup

variable {hooks hooks' : List HtkHook} {id : Nat} {hook hook' : HtkHook}

theorem isLive_lt (live : isLive hooks id = true) : id < hooks.length := by
  unfold isLive at live
  by_contra beyond
  rw [List.getElem?_eq_none (by omega)] at live
  cases live

theorem isDue_lt {now : Int} (due : isDue hooks now id = true) : id < hooks.length := by
  unfold isDue at due
  by_contra beyond
  rw [List.getElem?_eq_none (by omega)] at due
  cases due

theorem isRepeating_lt (repeating : isRepeating hooks id = true) : id < hooks.length := by
  unfold isRepeating at repeating
  by_contra beyond
  rw [List.getElem?_eq_none (by omega)] at repeating
  cases repeating

theorem core_lookup (same : hooks'.map HtkHook.core = hooks.map HtkHook.core) (id : Nat) :
    hooks'[id]?.map HtkHook.core = hooks[id]?.map HtkHook.core := by
  rw [← List.getElem?_map, ← List.getElem?_map, same]

theorem core_length (same : hooks'.map HtkHook.core = hooks.map HtkHook.core) :
    hooks'.length = hooks.length := by
  have lengths := congrArg List.length same
  rwa [List.length_map, List.length_map] at lengths

theorem isRepeating_core (same : hooks'.map HtkHook.core = hooks.map HtkHook.core) (id : Nat) :
    isRepeating hooks' id = isRepeating hooks id := by
  have lookup (hooks : List HtkHook) :
      isRepeating hooks id = (hooks[id]?.map HtkHook.core).any fun core => core.1 ≠ 0 := by
    unfold isRepeating
    cases hooks[id]? with
    | none => rfl
    | some hook => rfl
  rw [lookup, lookup, core_lookup same]

theorem isOneShot_core (same : hooks'.map HtkHook.core = hooks.map HtkHook.core) (id : Nat) :
    isOneShot hooks' id = isOneShot hooks id := by
  have lookup (hooks : List HtkHook) :
      isOneShot hooks id = (hooks[id]?.map HtkHook.core).any fun core => core.1 = 0 := by
    unfold isOneShot
    cases hooks[id]? with
    | none => rfl
    | some hook => rfl
  rw [lookup, lookup, core_lookup same]

theorem isDue_core (same : hooks'.map HtkHook.core = hooks.map HtkHook.core) (now : Int)
    (id : Nat) : isDue hooks' now id = isDue hooks now id := by
  have lookup (hooks : List HtkHook) : isDue hooks now id =
      (hooks[id]?.map HtkHook.core).any fun core => core.2.2.any fun due => due ≤ now := by
    unfold isDue
    cases hooks[id]? with
    | none => rfl
    | some hook =>
      simp only [Option.any_some, Option.map_some, HtkHook.core]
      by_cases once : hook.ms = 0
      · simp [once]
      · simp [once]
  rw [lookup, lookup, core_lookup same]

theorem core_set (isHook : hooks[id]? = some hook) (same : hook'.core = hook.core) :
    (hooks.set id hook').map HtkHook.core = hooks.map HtkHook.core := by
  obtain ⟨less, isHook⟩ := List.getElem?_eq_some_iff.mp isHook
  rw [List.map_set, same, ← isHook]
  apply List.ext_getElem
  · rw [List.length_set]
  · intro i less' less''
    rw [List.getElem_set]
    split
    next same => rw [List.getElem_map]; simp only [same]
    · rfl

theorem nextOf_set (less : id < hooks.length) (i : Nat) :
    nextOf (hooks.set id hook') i = if i = id then hook'.next else nextOf hooks i := by
  unfold nextOf
  rw [List.getElem?_set]
  by_cases same : id = i
  · rw [if_pos same, if_pos (same ▸ less), if_pos same.symm]
    rfl
  · rw [if_neg same, if_neg (Ne.symm same)]

theorem isLive_set (less : id < hooks.length) (i : Nat) :
    isLive (hooks.set id hook') i = if i = id then !hook'.freed else isLive hooks i := by
  unfold isLive
  rw [List.getElem?_set]
  by_cases same : id = i
  · rw [if_pos same, if_pos (same ▸ less), if_pos same.symm]
    rfl
  · rw [if_neg same, if_neg (Ne.symm same)]

theorem lookup_add (hooks : List HtkHook) (hook : HtkHook) (id : Nat) :
    (hooks ++ [hook])[id]? = if id = hooks.length then some hook else hooks[id]? := by
  by_cases isNew : id = hooks.length
  · rw [if_pos isNew, isNew, List.getElem?_concat_length]
  · rw [if_neg isNew]
    by_cases less : id < hooks.length
    · exact List.getElem?_append_left less
    · rw [List.getElem?_eq_none, List.getElem?_eq_none (by omega)]
      rw [List.length_append, List.length_singleton]
      omega

theorem Hooks.read_some {s : Hooks} (isRead : s.read id = some hook) :
    s.hooks[id]? = some hook ∧ hook.freed = false := by
  unfold Hooks.read at isRead
  obtain ⟨found, isFound, kept⟩ := Option.bind_eq_some_iff.mp isRead
  split at kept
  · cases kept
  next notFreed =>
    cases kept
    exact ⟨isFound, Bool.eq_false_iff.mpr notFreed⟩

theorem Hooks.read_live {s : Hooks} (live : isLive s.hooks id = true) :
    ∃ hook, s.read id = some hook := by
  unfold isLive at live
  unfold Hooks.read
  cases isHook : s.hooks[id]? with
  | none =>
    rw [isHook] at live
    cases live
  | some hook =>
    rw [isHook, Option.any_some] at live
    refine ⟨hook, ?_⟩
    rw [Option.bind_some, if_neg (by simpa using live)]

end Lookup

end Aholyc.Htk
