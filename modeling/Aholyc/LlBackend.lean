import Aholyc.CBackend
import Aholyc.Lib.Code

/-!
# The LLVM backend: statements

`emit_stmt` and `emit_func` of `src/back_ll.c`. The emitted function is a flat
list of labels and instructions. What the backend writes for an expression is
one instruction here; the labels inside it are not modelled, so the numbers of
the others differ from those of the text.
-/

namespace Aholyc.LlBackend

open Aholyc.Lib.Code Aholyc.Effects Aholyc.CBackend

/-- The hints of `newlab`: then, else, endif, and so on. -/
inductive Hint where
  | ifThen | ifElse | ifEnd
  | whead | wbody | wend
  | dbody | dcond | dend
  | fhead | fbody | fend
  | tryBody | catchL | tryEnd | rethrow
  deriving DecidableEq, Repr

inductive LlLabel where
  -- `B<hint><n>`
  | block (hint : Hint) (n : Nat)
  -- `dead<n>`
  | dead (n : Nat)
  -- `L<l>`
  | user (l : String)
  deriving DecidableEq, Repr

inductive LlInstr where
  | label (l : LlLabel)
  | br (l : LlLabel)
  | eval (e : Expr)
  -- the value of `cond`, and a branch on it
  | condBr (cond : Expr) (yes no : LlLabel)
  -- the argument of a `throw` stored to `except_ch`, zero to `catch_except`
  | storeExcept (args : Expr)
  -- `__hc_try_push`, `_setjmp`, `icmp eq`, and a branch to `body` or to `Bcatch<site>`
  | setjmp (body : LlLabel) (site : Nat)
  | tryPop
  -- a load of `catch_except`, `icmp eq`, and a branch
  | testExcept (uncaught done : LlLabel)
  -- a load of `except_ch`, and `call void @throw`
  | throwAgain
  | ret (e : Option Expr)
  | asm (a : AsmBlock)

def LlInstr.placed : LlInstr → Option LlLabel
  | label l => some l
  | _ => none

/-- The fields of `LlGen` that `emit_stmt` uses. The label of a handler is the
number of its catch label; the innermost handler comes first. -/
structure LlGen where
  nlab : Nat := 0
  tryDepth : Nat := 0
  handlers : List CHandler := []
  blockOpen : Bool := false
  tooDeep : Bool := false

/-- A part of the emitter: what it writes, and the generator after it. -/
abbrev Emit := LlGen → List LlInstr × LlGen

namespace Emit

def skip : Emit := fun g => ([], g)

def andThen (a b : Emit) : Emit := fun g =>
  let x := a g
  let y := b x.2
  (x.1 ++ y.1, y.2)

def all : List Emit → Emit
  | [] => skip
  | a :: rest => a.andThen (all rest)

def write (is : List LlInstr) : Emit := fun g => (is, g)

def close (i : LlInstr) : Emit := fun g => ([i], { g with blockOpen := false })

def ensureBlock : Emit := fun g =>
  if g.blockOpen then ([], g)
  else ([.label (.dead (g.nlab + 1))], { g with nlab := g.nlab + 1, blockOpen := true })

def brTo (l : LlLabel) : Emit := ensureBlock.andThen (close (.br l))

def placeLabel (l : LlLabel) : Emit := fun g =>
  ((if g.blockOpen then [.br l] else []) ++ [.label l], { g with blockOpen := true })

end Emit

def LlGen.pushHandler (g : LlGen) (dynamic : Bool) (label : Nat) : LlGen :=
  { g with
    handlers := ⟨label, dynamic⟩ :: g.handlers
    tooDeep := g.tooDeep || CGen.handlersMax ≤ g.handlers.length }

def LlGen.popHandler (g : LlGen) : LlGen := { g with handlers := g.handlers.tail }

def Emit.under (dynamic : Bool) (label : Nat) (body : Emit) : Emit := fun g =>
  let a := body (g.pushHandler dynamic label)
  (a.1, a.2.popHandler)

def Emit.deeper (body : Emit) : Emit := fun g =>
  let a := body { g with tryDepth := g.tryDepth + 1 }
  (a.1, { a.2 with tryDepth := a.2.tryDepth - 1 })

def LlGen.reserve (g : LlGen) (n : Nat) : LlGen := { g with nlab := g.nlab + n }

open Emit

/-- `emit_local_throw` on a `throw` statement, or the plain call. -/
def emitThrow (e args : Expr) : Emit := fun g =>
  match g.handlers with
  | h :: _ =>
      if h.dynamic then all [ensureBlock, write [.eval e]] g
      else all [ensureBlock, write [.storeExcept args], brTo (.block .catchL h.label)] g
  | [] => all [ensureBlock, write [.eval e]] g

def emitCatchEnd (done : LlLabel) : Emit := fun g =>
  match g.handlers with
  | h :: _ =>
      if h.dynamic then again g
      else
        all [ensureBlock, close (.testExcept (.block .catchL h.label) done), placeLabel done] g
  | [] => again g
where
  again : Emit := ensureBlock.andThen fun g =>
    let rethrow := LlLabel.block .rethrow (g.nlab + 1)
    all [close (.testExcept rethrow done), placeLabel rethrow, write [.throwAgain], brTo done,
      placeLabel done] (g.reserve 1)

def emitStmt (pick : TryMode → TryMode) : Stmt → Emit
  | .null => skip
  | .seq s next => all [emitStmt pick s, emitStmt pick next]
  | .nop => skip
  | .exprStmt e =>
      match isThrowCall e with
      | some args => emitThrow e args
      | none => all [ensureBlock, write [.eval e]]
  | .block body => emitStmt pick body
  | .ifStmt cond thn els => fun g =>
      let tl := LlLabel.block .ifThen (g.nlab + 1)
      let el := LlLabel.block .ifElse (g.nlab + 2)
      let dl := LlLabel.block .ifEnd (g.nlab + 3)
      match els with
      | .null =>
          all [ensureBlock, close (.condBr cond tl dl), placeLabel tl, emitStmt pick thn, brTo dl,
            placeLabel dl] (g.reserve 3)
      | els =>
          all [ensureBlock, close (.condBr cond tl el), placeLabel tl, emitStmt pick thn, brTo dl,
            placeLabel el, emitStmt pick els, brTo dl, placeLabel dl] (g.reserve 3)
  | .whileStmt cond thn => fun g =>
      let hl := LlLabel.block .whead (g.nlab + 1)
      let bl := LlLabel.block .wbody (g.nlab + 2)
      let el := LlLabel.block .wend (g.nlab + 3)
      all [brTo hl, placeLabel hl, close (.condBr cond bl el), placeLabel bl, emitStmt pick thn,
        brTo hl, placeLabel el] (g.reserve 3)
  | .doWhile thn cond => fun g =>
      let bl := LlLabel.block .dbody (g.nlab + 1)
      let hl := LlLabel.block .dcond (g.nlab + 2)
      let el := LlLabel.block .dend (g.nlab + 3)
      all [brTo bl, placeLabel bl, emitStmt pick thn, brTo hl, placeLabel hl,
        close (.condBr cond bl el), placeLabel el] (g.reserve 3)
  | .forStmt init cond inc thn => fun g =>
      let hl := LlLabel.block .fhead (g.nlab + 1)
      let bl := LlLabel.block .fbody (g.nlab + 2)
      let el := LlLabel.block .fend (g.nlab + 3)
      let test :=
        match cond with
        | some c => close (.condBr c bl el)
        | none => brTo bl
      all [emitStmt pick init, brTo hl, placeLabel hl, test, placeLabel bl, emitStmt pick thn,
        emitStmt pick inc, brTo hl, placeLabel el] (g.reserve 3)
  | .returnStmt lhs => fun g =>
      all [ensureBlock, write (List.replicate g.tryDepth .tryPop), close (.ret lhs)] g
  | .goto l => brTo (.user l)
  | .label l => placeLabel (.user l)
  | .asmStmt a => all [ensureBlock, write [.asm a]]
  | .tryStmt mode thn els =>
      match pick mode with
      | .none => emitStmt pick thn
      | .branch => fun g =>
          let cl := LlLabel.block .catchL (g.nlab + 1)
          let el := LlLabel.block .tryEnd (g.nlab + 2)
          all [under false (g.nlab + 1) (emitStmt pick thn), brTo el, placeLabel cl,
            emitStmt pick els, emitCatchEnd el] (g.reserve 2)
      | .dynamic => ensureBlock.andThen fun g =>
          let tl := LlLabel.block .tryBody (g.nlab + 1)
          let cl := LlLabel.block .catchL (g.nlab + 2)
          let el := LlLabel.block .tryEnd (g.nlab + 3)
          all [close (.setjmp tl (g.nlab + 2)), placeLabel tl,
            deeper (under true (g.nlab + 2) (emitStmt pick thn)), ensureBlock, write [.tryPop],
            brTo el, placeLabel cl, emitStmt pick els, emitCatchEnd el] (g.reserve 3)

/-- The code of a function: `emit_func` opens the entry block, and ends an
open block with `ret`. -/
def emitBody (pick : TryMode → TryMode) (body : Stmt) : List LlInstr :=
  let a := emitStmt pick body { blockOpen := true }
  a.1 ++ if a.2.blockOpen then [.ret none] else []

def LlLabel.number : LlLabel → Option Nat
  | .block _ n => some n
  | .dead n => some n
  | .user _ => none

/-- What the emitter has written, and its generator, when it began with `g`:
the handlers are back, and the code places the labels `used`, that were made
before, the user labels `kept`, and labels made meanwhile, each of them once. -/
structure Emitted (used : List LlLabel) (kept : List String) (g : LlGen)
    (e : List LlInstr × LlGen) : Prop where
  handlers : e.2.handlers = g.handlers
  tryDepth : e.2.tryDepth = g.tryDepth
  later : g.nlab ≤ e.2.nlab
  origin : ∀ l ∈ labels LlInstr.placed e.1, l ∈ used ∨ (∃ u ∈ kept, l = .user u) ∨
    ∃ n, l.number = some n ∧ g.nlab < n ∧ n ≤ e.2.nlab
  distinct : used.Nodup → (∀ l ∈ used, ∃ n, l.number = some n ∧ n ≤ g.nlab) → kept.Nodup →
    (labels LlInstr.placed e.1).Nodup

abbrev Emits (used : List LlLabel) (kept : List String) (a : Emit) : Prop :=
  ∀ g, Emitted used kept g (a g)

theorem labels_placeLabel (l : LlLabel) (g : LlGen) :
    labels LlInstr.placed (placeLabel l g).1 = [l] := by
  unfold placeLabel
  split <;> rfl

theorem Emitted.append {used used' : List LlLabel} {kept kept' : List String} {g : LlGen}
    {e e' : List LlInstr × LlGen} (first : Emitted used kept g e)
    (rest : Emitted used' kept' e.2 e') :
    Emitted (used ++ used') (kept ++ kept') g (e.1 ++ e'.1, e'.2) where
  handlers := rest.handlers.trans first.handlers
  tryDepth := rest.tryDepth.trans first.tryDepth
  later := first.later.trans rest.later
  origin := by
    intro l member
    have more := rest.later
    have less := first.later
    rcases List.mem_append.mp (by simpa using member) with inside | inside
    · rcases first.origin l inside with old | ⟨u, user, named⟩ | ⟨n, number, low, high⟩
      · exact .inl (List.mem_append_left _ old)
      · exact .inr (.inl ⟨u, List.mem_append_left _ user, named⟩)
      · exact .inr (.inr ⟨n, number, low, high.trans more⟩)
    · rcases rest.origin l inside with old | ⟨u, user, named⟩ | ⟨n, number, low, high⟩
      · exact .inl (List.mem_append_right _ old)
      · exact .inr (.inl ⟨u, List.mem_append_right _ user, named⟩)
      · exact .inr (.inr ⟨n, number, by omega, high⟩)
  distinct := by
    intro once old users
    have less := first.later
    have split := List.nodup_append.mp once
    have splitUsers := List.nodup_append.mp users
    have oldA : ∀ l ∈ used, ∃ n, l.number = some n ∧ n ≤ g.nlab :=
      fun l member => old l (List.mem_append_left _ member)
    have oldB : ∀ l ∈ used', ∃ n, l.number = some n ∧ n ≤ g.nlab :=
      fun l member => old l (List.mem_append_right _ member)
    have oldB' : ∀ l ∈ used', ∃ n, l.number = some n ∧ n ≤ e.2.nlab := by
      intro l member
      obtain ⟨n, number, bound⟩ := oldB l member
      exact ⟨n, number, bound.trans less⟩
    rw [labels_append, List.nodup_append]
    refine ⟨first.distinct split.1 oldA splitUsers.1,
      rest.distinct split.2.1 oldB' splitUsers.2.1, ?_⟩
    rintro l left l' right rfl
    -- the two parts place the same label only if its origin is the same
    rcases first.origin l left with oldLeft | ⟨u, user, rfl⟩ | ⟨n, number, low, high⟩
    · obtain ⟨n, number, bound⟩ := oldA l oldLeft
      rcases rest.origin l right with oldRight | ⟨u, user, rfl⟩ | ⟨n', number', low', high'⟩
      · exact split.2.2 l oldLeft l oldRight rfl
      · cases number
      · cases number.symm.trans number'
        omega
    · rcases rest.origin _ right with oldRight | ⟨u', user', same⟩ | ⟨n', number', low', high'⟩
      · obtain ⟨n, number, bound⟩ := oldB _ oldRight
        cases number
      · cases same
        exact splitUsers.2.2 u user u user' rfl
      · cases number'
    · rcases rest.origin l right with oldRight | ⟨u, user, rfl⟩ | ⟨n', number', low', high'⟩
      · obtain ⟨n', number', bound⟩ := oldB l oldRight
        cases number.symm.trans number'
        omega
      · cases number
      · cases number.symm.trans number'
        omega

/-- Labels made by `newlab` beforehand are labels made meanwhile. -/
theorem Emitted.reserve (n : Nat) (made : List LlLabel) {used : List LlLabel}
    {kept : List String} {g : LlGen} {e : List LlInstr × LlGen} (once : made.Nodup)
    (fresh : ∀ l ∈ made, ∃ k, l.number = some k ∧ g.nlab < k ∧ k ≤ g.nlab + n)
    (body : Emitted (made ++ used) kept (g.reserve n) e) : Emitted used kept g e where
  handlers := body.handlers
  tryDepth := body.tryDepth
  later := (Nat.le_add_right _ _).trans body.later
  origin := by
    intro l member
    have more : g.nlab + n ≤ e.2.nlab := body.later
    rcases body.origin l member with named | user | ⟨k, number, low, high⟩
    · rcases List.mem_append.mp named with new | old
      · obtain ⟨k, number, low, high⟩ := fresh l new
        exact .inr (.inr ⟨k, number, low, by omega⟩)
      · exact .inl old
    · exact .inr (.inl user)
    · have low' : g.nlab + n < k := low
      exact .inr (.inr ⟨k, number, by omega, high⟩)
  distinct := by
    intro onceUsed old users
    apply body.distinct _ _ users
    · refine List.nodup_append.mpr ⟨once, onceUsed, ?_⟩
      rintro l new l' used rfl
      obtain ⟨k, number, low, -⟩ := fresh l new
      obtain ⟨k', number', high⟩ := old l used
      cases number.symm.trans number'
      omega
    · intro l member
      rcases List.mem_append.mp member with new | used
      · obtain ⟨k, number, -, high⟩ := fresh l new
        exact ⟨k, number, high⟩
      · obtain ⟨k, number, high⟩ := old l used
        exact ⟨k, number, high.trans (Nat.le_add_right _ _)⟩

namespace Emits

variable {used used' : List LlLabel} {kept kept' : List String} {a b : Emit} {rest : List Emit}

theorem skip : Emits [] [] Emit.skip := by
  intro g
  constructor <;> simp [Emit.skip, labels]

theorem write (is : List LlInstr) (none : labels LlInstr.placed is = []) :
    Emits [] [] (Emit.write is) := by
  intro g
  constructor <;> simp [Emit.write, none]

theorem close (i : LlInstr) (none : i.placed = Option.none) : Emits [] [] (Emit.close i) := by
  intro g
  constructor <;> simp [Emit.close, labels, none]

theorem ensureBlock : Emits [] [] Emit.ensureBlock := by
  intro g
  constructor <;> unfold Emit.ensureBlock <;> split <;>
    simp [labels, LlInstr.placed, LlLabel.number]

theorem placeLabel (l : LlLabel) : Emits [l] [] (Emit.placeLabel l) := by
  intro g
  refine ⟨rfl, rfl, Nat.le_refl _, ?_, ?_⟩
  · rw [labels_placeLabel]
    exact fun _ member => .inl member
  · rw [labels_placeLabel]
    exact fun once _ _ => once

theorem placeUser (l : String) : Emits [] [l] (Emit.placeLabel (.user l)) := by
  intro g
  refine ⟨rfl, rfl, Nat.le_refl _, ?_, ?_⟩
  · rw [labels_placeLabel]
    exact fun _ member => .inr (.inl ⟨l, List.mem_singleton_self l, List.mem_singleton.mp member⟩)
  · rw [labels_placeLabel]
    exact fun _ _ _ => List.nodup_singleton _

theorem andThen (first : Emits used kept a) (rest : Emits used' kept' b) :
    Emits (used ++ used') (kept ++ kept') (a.andThen b) :=
  fun g => (first g).append (rest _)

theorem brTo (l : LlLabel) : Emits [] [] (Emit.brTo l) :=
  ensureBlock.andThen (close _ rfl)

theorem nil : Emits [] [] (Emit.all []) := skip

theorem cons (first : Emits [] [] a) (others : Emits used kept (.all rest)) :
    Emits used kept (.all (a :: rest)) :=
  first.andThen others

theorem consLabel (l : LlLabel) (others : Emits used kept (.all rest)) :
    Emits (l :: used) kept (.all (Emit.placeLabel l :: rest)) :=
  (placeLabel l).andThen others

theorem consStmt (first : Emits [] kept a) (others : Emits used kept' (.all rest)) :
    Emits used (kept ++ kept') (.all (a :: rest)) :=
  first.andThen others

theorem consLast (first : Emits [] kept a) (others : Emits used [] (.all rest)) :
    Emits used kept (.all (a :: rest)) := by
  have both := consStmt first others
  rwa [List.append_nil] at both

theorem under (dynamic : Bool) (label : Nat) (body : Emits used kept a) :
    Emits used kept (a.under dynamic label) := by
  intro g
  have inside := body (g.pushHandler dynamic label)
  exact ⟨congrArg List.tail inside.handlers, inside.tryDepth, inside.later, inside.origin,
    inside.distinct⟩

theorem deeper (body : Emits used kept a) : Emits used kept a.deeper := by
  intro g
  have inside := body { g with tryDepth := g.tryDepth + 1 }
  exact ⟨inside.handlers, congrArg (· - 1) inside.tryDepth, inside.later, inside.origin,
    inside.distinct⟩

end Emits

section Statements

variable (pick : TryMode → TryMode)

theorem evalStmt_emits (e : Expr) : Emits [] [] (all [ensureBlock, write [.eval e]]) :=
  Emits.ensureBlock.cons ((Emits.write _ rfl).cons .nil)

theorem emitThrow_emits (e args : Expr) : Emits [] [] (emitThrow e args) := by
  intro g
  unfold emitThrow
  split
  · split
    · exact evalStmt_emits e g
    · rename_i h _ _ _
      have branch : Emits [] []
          (all [ensureBlock, write [.storeExcept args], brTo (.block .catchL h.label)]) :=
        Emits.ensureBlock.cons ((Emits.write _ rfl).cons ((Emits.brTo _).cons .nil))
      exact branch g
  · exact evalStmt_emits e g

theorem emitCatchEnd_emits (done : LlLabel) : Emits [done] [] (emitCatchEnd done) := by
  have again : Emits [done] [] (emitCatchEnd.again done) := by
    apply Emits.ensureBlock.andThen
    intro g
    apply Emitted.reserve 1 [.block .rethrow (g.nlab + 1)] (by simp) (by simp [LlLabel.number])
    apply (Emits.close _ rfl).cons
    apply Emits.consLabel
    apply (Emits.write _ rfl).cons
    apply (Emits.brTo done).cons
    exact Emits.consLabel done .nil
  intro g
  unfold emitCatchEnd
  split
  · split
    · exact again g
    · apply Emits.ensureBlock.cons
      apply (Emits.close _ rfl).cons
      exact Emits.consLabel done .nil
  · exact again g

/-- A statement places the labels that are kept, and each of them once if they
differ. -/
theorem emit_emits (s : Stmt) : Emits [] (s.keptLabels pick) (emitStmt pick s) := by
  induction s with
  | null => exact .skip
  | nop => exact .skip
  | seq s next first rest => exact Emits.consStmt first (Emits.consLast rest .nil)
  | exprStmt e =>
    simp only [emitStmt]
    split
    · exact emitThrow_emits e _
    · exact evalStmt_emits e
  | block body ih => exact ih
  | ifStmt cond thn els ihThn ihEls =>
    intro g
    simp only [emitStmt]
    split
    · apply Emitted.reserve 3 [.block .ifThen (g.nlab + 1), .block .ifEnd (g.nlab + 3)] (by simp)
        (by simp [LlLabel.number])
      apply Emits.ensureBlock.cons
      apply (Emits.close _ rfl).cons
      apply Emits.consLabel
      apply Emits.consStmt ihThn
      apply (Emits.brTo _).cons
      exact Emits.consLabel _ .nil
    · apply Emitted.reserve 3
        [.block .ifThen (g.nlab + 1), .block .ifElse (g.nlab + 2), .block .ifEnd (g.nlab + 3)]
        (by simp) (by simp [LlLabel.number])
      apply Emits.ensureBlock.cons
      apply (Emits.close _ rfl).cons
      apply Emits.consLabel
      apply Emits.consStmt ihThn
      apply (Emits.brTo _).cons
      apply Emits.consLabel
      apply Emits.consLast ihEls
      apply (Emits.brTo _).cons
      exact Emits.consLabel _ .nil
  | whileStmt cond thn ih =>
    intro g
    apply Emitted.reserve 3
      [.block .whead (g.nlab + 1), .block .wbody (g.nlab + 2), .block .wend (g.nlab + 3)]
      (by simp) (by simp [LlLabel.number])
    apply (Emits.brTo _).cons
    apply Emits.consLabel
    apply (Emits.close _ rfl).cons
    apply Emits.consLabel
    apply Emits.consLast ih
    apply (Emits.brTo _).cons
    exact Emits.consLabel _ .nil
  | doWhile thn cond ih =>
    intro g
    apply Emitted.reserve 3
      [.block .dbody (g.nlab + 1), .block .dcond (g.nlab + 2), .block .dend (g.nlab + 3)]
      (by simp) (by simp [LlLabel.number])
    apply (Emits.brTo _).cons
    apply Emits.consLabel
    apply Emits.consLast ih
    apply (Emits.brTo _).cons
    apply Emits.consLabel
    apply (Emits.close _ rfl).cons
    exact Emits.consLabel _ .nil
  | forStmt init cond inc thn ihInit ihInc ihThn =>
    intro g
    apply Emitted.reserve 3
      [.block .fhead (g.nlab + 1), .block .fbody (g.nlab + 2), .block .fend (g.nlab + 3)]
      (by simp) (by simp [LlLabel.number])
    apply Emits.consStmt ihInit
    apply (Emits.brTo _).cons
    apply Emits.consLabel
    have rest : ∀ test, Emits [] [] test → Emits
        [.block .fbody (g.nlab + 2), .block .fend (g.nlab + 3)]
        (thn.keptLabels pick ++ inc.keptLabels pick)
        (all [test, placeLabel (.block .fbody (g.nlab + 2)), emitStmt pick thn, emitStmt pick inc,
          brTo (.block .fhead (g.nlab + 1)), placeLabel (.block .fend (g.nlab + 3))]) := by
      intro test plain
      apply plain.cons
      apply Emits.consLabel
      apply Emits.consStmt ihThn
      apply Emits.consLast ihInc
      apply (Emits.brTo _).cons
      exact Emits.consLabel _ .nil
    cases cond with
    | some c => exact rest _ (Emits.close _ rfl)
    | none => exact rest _ (Emits.brTo _)
  | returnStmt lhs =>
    intro g
    apply Emits.ensureBlock.cons
    apply (Emits.write _ _).cons
    · exact (Emits.close _ rfl).cons .nil
    · induction g.tryDepth with
      | zero => rfl
      | succ n ih => exact ih
  | goto l => exact .brTo _
  | label l => exact .placeUser l
  | asmStmt a => exact Emits.ensureBlock.cons ((Emits.write _ rfl).cons .nil)
  | tryStmt mode thn els ihThn ihEls =>
    simp only [emitStmt, Stmt.keptLabels]
    cases pick mode with
    | none =>
      simp only [if_true, List.append_nil]
      exact ihThn
    | branch =>
      intro g
      simp only [reduceCtorEq, if_false]
      apply Emitted.reserve 2 [.block .catchL (g.nlab + 1), .block .tryEnd (g.nlab + 2)]
        (by simp) (by simp [LlLabel.number])
      apply Emits.consStmt (Emits.under _ _ ihThn)
      apply (Emits.brTo _).cons
      apply Emits.consLabel
      apply Emits.consLast ihEls
      exact (emitCatchEnd_emits _).andThen .nil
    | dynamic =>
      simp only [reduceCtorEq, if_false]
      apply Emits.ensureBlock.andThen
      intro g
      apply Emitted.reserve 3
        [.block .tryBody (g.nlab + 1), .block .catchL (g.nlab + 2), .block .tryEnd (g.nlab + 3)]
        (by simp) (by simp [LlLabel.number])
      apply (Emits.close _ rfl).cons
      apply Emits.consLabel
      apply Emits.consStmt (Emits.deeper (Emits.under _ _ ihThn))
      apply Emits.ensureBlock.cons
      apply (Emits.write _ rfl).cons
      apply (Emits.brTo _).cons
      apply Emits.consLabel
      apply Emits.consLast ihEls
      exact (emitCatchEnd_emits _).andThen .nil

/-- No label is placed twice in a function whose user labels differ. -/
theorem emitBody_distinct (body : Stmt) (users : (body.keptLabels pick).Nodup) :
    (labels LlInstr.placed (emitBody pick body)).Nodup := by
  have inside := (emit_emits pick body { blockOpen := true }).distinct (by simp) (by simp) users
  have last : ∀ b : Bool, labels LlInstr.placed (if b then [LlInstr.ret none] else []) = [] := by
    intro b
    cases b <;> rfl
  unfold emitBody
  rw [labels_append, last, List.append_nil]
  exact inside

end Statements

end Aholyc.LlBackend
