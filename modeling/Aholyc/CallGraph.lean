import Aholyc.Soundness

/-!
# The analysis is a search of the call graph

`analyze_exceptions` raises the flag of a function exactly when a chain of calls, each in a place
that the analysis visits, leads from the function to one that raises by itself.
-/

namespace Aholyc.CallGraph

open Aholyc.Lib Aholyc.Effects Aholyc.Eval Aholyc.Soundness

/-- What an expression may raise by, from left to right: a called function, or `none` for a call of
`throw` and for a call through a pointer. -/
def exprSources : Expr → List (Option String)
  | .bin _ _ lhs rhs => exprSources lhs ++ exprSources rhs
  | .un _ _ lhs => exprSources lhs
  | .assign _ lhs rhs => exprSources lhs ++ exprSources rhs
  | .member _ _ lhs => exprSources lhs
  | .deref _ lhs => exprSources lhs
  | .addr _ lhs => exprSources lhs
  | .cast _ _ lhs => exprSources lhs
  | .call _ func args _ => exprSources args ++ [if isThrow func then none else some func]
  | .callInd _ lhs args _ => exprSources lhs ++ exprSources args ++ [none]
  | .arg a next => exprSources a ++ exprSources next
  | _ => []

def condSources (cond : Option Expr) : List (Option String) := cond.elim [] exprSources

/-- The catch of a `try` adds nothing: it runs when the body has raised. -/
def sources : Stmt → List (Option String)
  | .seq s next => sources s ++ sources next
  | .exprStmt e => exprSources e
  | .block body => sources body
  | .ifStmt cond thn els => exprSources cond ++ (sources thn ++ sources els)
  | .whileStmt cond thn => exprSources cond ++ sources thn
  | .doWhile thn cond => exprSources cond ++ sources thn
  | .forStmt init cond inc thn => condSources cond ++ (sources thn ++ (sources init ++ sources inc))
  | .returnStmt lhs => condSources lhs
  | .tryStmt _ thn _ => sources thn
  | _ => []

def bodySources (fn : Func) : List (Option String) := fn.body.elim [] sources

variable (p : String → Bool)

theorem any_or (a b : Effect) : (a.or b).any = (a.any || b.any) := by
  unfold Effect.or Effect.any
  rw [Bool.or_assoc, Bool.or_assoc, Bool.or_left_comm b.loc]

theorem exprEffect_any (e : Expr) :
    (exprEffect p e).any = (exprSources e).any fun source => source.elim true p := by
  induction e with
  | call _ func args _ ih =>
    rw [exprEffect, exprSources, any_or, List.any_append, ih]
    cases named : isThrow func with
    | true => simp [Effect.any]
    | false => simp [Effect.any]
  | callInd _ lhs args _ ihLhs ihArgs =>
    simp only [exprEffect, exprSources, any_or, List.any_append, ihLhs, ihArgs]
    rfl
  | bin _ _ lhs rhs ihLhs ihRhs =>
    rw [exprEffect, exprSources, any_or, List.any_append, ihLhs, ihRhs]
  | assign _ lhs rhs ihLhs ihRhs =>
    rw [exprEffect, exprSources, any_or, List.any_append, ihLhs, ihRhs]
  | arg a next ihA ihNext =>
    rw [exprEffect, exprSources, any_or, List.any_append, ihA, ihNext]
  | un _ _ lhs ih => exact ih
  | member _ _ lhs ih => exact ih
  | deref _ lhs ih => exact ih
  | addr _ lhs ih => exact ih
  | cast _ _ lhs ih => exact ih
  | _ => rfl

theorem condEffect_any (cond : Option Expr) :
    (condEffect p cond).any = (condSources cond).any fun source => source.elim true p := by
  cases cond with
  | none => rfl
  | some e => exact exprEffect_any p e

theorem throw_source {e args : Expr} (found : isThrowCall e = some args) :
    none ∈ exprSources e := by
  cases e with
  | call _ func as _ =>
    simp only [isThrowCall] at found
    split at found
    · rename_i named
      rw [exprSources, if_pos named]
      exact List.mem_append_right _ (List.mem_singleton_self none)
    · cases found
  | _ => cases found

theorem effect_any (s : Stmt) :
    (effect p s).any = (sources s).any fun source => source.elim true p := by
  induction s with
  | exprStmt e =>
    rw [effect, sources]
    split
    · rename_i args found
      rw [any_or, List.any_eq_true.mpr ⟨none, throw_source found, rfl⟩]
      exact Bool.or_true _
    · exact exprEffect_any p e
  | tryStmt mode thn els ihThn _ =>
    rw [effect, sources, ← ihThn]
    cases raises : (effect p thn).any with
    | true =>
      rw [if_pos rfl, any_or]
      exact Bool.or_true _
    | false => rfl
  | seq s next ihS ihNext => rw [effect, sources, any_or, List.any_append, ihS, ihNext]
  | ifStmt cond thn els ihThn ihEls =>
    simp only [effect, sources, any_or, List.any_append, exprEffect_any, ihThn, ihEls]
  | whileStmt cond thn ih => simp only [effect, sources, any_or, List.any_append, exprEffect_any, ih]
  | doWhile thn cond ih => simp only [effect, sources, any_or, List.any_append, exprEffect_any, ih]
  | forStmt init cond inc thn ihInit ihInc ihThn =>
    simp only [effect, sources, any_or, List.any_append, condEffect_any, ihInit, ihInc, ihThn]
  | block body ih => exact ih
  | returnStmt lhs => exact condEffect_any p lhs
  | _ => rfl

variable (prog : Program)

/-- A function of the program calls the other one where the analysis looks. -/
def Calls (f g : String) : Prop := Chaotic.Uses Func.name bodySources prog.funcs f g

/-- The function raises by itself: by a `throw` or a call through a pointer, or, without a body,
as the analysis takes it. -/
def Raises (f : String) : Prop := ∃ fn ∈ prog.funcs, fn.name = f ∧
  (none ∈ bodySources fn ∨ fn.body = none ∧ externCanThrow fn = true)

theorem bodyThrows_asks (p : String → Bool) (fn : Func) :
    bodyThrows p fn = (bodySources fn).any fun source => source.elim true p := by
  unfold bodyThrows bodySources
  cases fn.body with
  | none => rfl
  | some body => exact effect_any p body

theorem seedFlags_iff (f : String) : seedFlags prog f = true ↔
    ∃ fn ∈ prog.funcs, fn.name = f ∧ fn.body = none ∧ externCanThrow fn = true := by
  unfold seedFlags
  constructor
  · intro seeded
    cases found : prog.findFunc f with
    | none =>
      rw [found] at seeded
      cases seeded
    | some fn =>
      rw [found] at seeded
      obtain ⟨member, named⟩ := findFunc_some found
      cases body : fn.body with
      | none => exact ⟨fn, member, named, body, by simpa [body] using seeded⟩
      | some stmt => simp [body] at seeded
  · rintro ⟨fn, member, rfl, declared, raises⟩
    rw [findFunc_of_mem member]
    simpa [declared] using raises

/-- The bodies of the `try` statements that the analysis visits, with their modes. The catch of a
`try` that is marked `TRY_NONE` is dropped and not visited. -/
def visited : Stmt → List (TryMode × Stmt)
  | .seq s next => visited s ++ visited next
  | .block body => visited body
  | .ifStmt _ thn els => visited thn ++ visited els
  | .whileStmt _ thn => visited thn
  | .doWhile thn _ => visited thn
  | .forStmt init _ inc thn => visited init ++ (visited inc ++ visited thn)
  | .tryStmt mode thn els =>
      (mode, thn) :: (visited thn ++ if mode = .none then [] else visited els)
  | _ => []

theorem marked_visited {p : String → Bool} {s : Stmt} (marked : Marked p s) :
    ∀ mode body, (mode, body) ∈ visited s → mode = tryMode (effect p body) := by
  induction s with
  | tryStmt mode thn els ihThn ihEls =>
    obtain ⟨isMode, markedThn, markedEls⟩ := marked
    intro mode' body member
    rcases List.mem_cons.mp member with isHead | rest
    · cases isHead
      exact isMode
    rcases List.mem_append.mp rest with inThn | inEls
    · exact ihThn markedThn mode' body inThn
    · split at inEls
      · cases inEls
      · rename_i live
        exact ihEls (markedEls live) mode' body inEls
  | seq s next ihS ihNext =>
    intro mode body member
    rcases List.mem_append.mp member with first | rest
    · exact ihS marked.1 mode body first
    · exact ihNext marked.2 mode body rest
  | ifStmt _ thn els ihThn ihEls =>
    intro mode body member
    rcases List.mem_append.mp member with first | rest
    · exact ihThn marked.1 mode body first
    · exact ihEls marked.2 mode body rest
  | forStmt init _ inc thn ihInit ihInc ihThn =>
    intro mode body member
    rcases List.mem_append.mp member with first | rest
    · exact ihInit marked.1 mode body first
    rcases List.mem_append.mp rest with second | third
    · exact ihInc marked.2.1 mode body second
    · exact ihThn marked.2.2 mode body third
  | block body ih => exact ih marked
  | whileStmt cond thn ih => exact ih marked
  | doWhile thn cond ih => exact ih marked
  | _ => exact fun _ _ member => absurd member List.not_mem_nil

/-- A chain of calls leads from the function to one that raises by itself. -/
def Reaches (f : String) : Prop := ∃ g, Relation.ReflTransGen (Calls prog) f g ∧ Raises prog g

theorem canThrow_reaches (f : String) : canThrow prog f = true ↔ Reaches prog f := by
  rw [Chaotic.iterate_chain bodyThrows_asks prog.funcs _ _ _ (canThrow_done prog)]
  apply exists_congr
  intro g
  apply and_congr_right
  intro _
  rw [seedFlags_iff]
  constructor
  · rintro (⟨fn, member, named, declared, raises⟩ | ⟨fn, member, named, own⟩)
    · exact ⟨fn, member, named, .inr ⟨declared, raises⟩⟩
    · exact ⟨fn, member, named, .inl own⟩
  · rintro ⟨fn, member, named, own | ⟨declared, raises⟩⟩
    · exact .inr ⟨fn, member, named, own⟩
    · exact .inl ⟨fn, member, named, declared, raises⟩

theorem any_sources_iff (raisers : List (Option String)) :
    (raisers.any fun source => source.elim true (canThrow prog)) = true ↔
      none ∈ raisers ∨ ∃ f, some f ∈ raisers ∧ Reaches prog f := by
  rw [List.any_eq_true]
  constructor
  · rintro ⟨source, member, up⟩
    cases source with
    | none => exact .inl member
    | some f => exact .inr ⟨f, member, (canThrow_reaches prog f).mp up⟩
  · rintro (own | ⟨f, member, reaches⟩)
    · exact ⟨none, own, rfl⟩
    · exact ⟨some f, member, (canThrow_reaches prog f).mpr reaches⟩

/-- A flag is raised exactly for the functions from which a chain of calls leads to a function that
raises by itself, that of the startup function exactly when one of its sources does, and in all
bodies that `analyze_exceptions` leaves behind a visited `try` is marked `TRY_NONE` exactly when no
source of its body does. -/
theorem canThrow_iff_reaches :
    (∀ f, canThrow prog f = true ↔ Reaches prog f) ∧
    (startupCanThrow prog = true ↔ none ∈ bodySources prog.startup ∨
      ∃ f, some f ∈ bodySources prog.startup ∧ Reaches prog f) ∧
    ∀ fn s, fn ∈ (analyzeExceptions prog).startup :: (analyzeExceptions prog).funcs →
      fn.body = some s → ∀ mode body, (mode, body) ∈ visited s →
        (mode = .none ↔
          none ∉ sources body ∧ ∀ f, some f ∈ sources body → ¬Reaches prog f) := by
  refine ⟨canThrow_reaches prog, ?_, ?_⟩
  · unfold startupCanThrow
    rw [bodyThrows_asks]
    exact any_sources_iff prog _
  · intro fn s member isBody mode body isTry
    have marked : Marked (canThrow prog) s := by
      have analyzed : ∃ old, fn = analyzeFunc (canThrow prog) old := by
        rcases List.mem_cons.mp member with isStartup | inFuncs
        · exact ⟨_, isStartup⟩
        · obtain ⟨old, -, same⟩ := List.mem_map.mp inFuncs
          exact ⟨old, same.symm⟩
      obtain ⟨old, rfl⟩ := analyzed
      obtain ⟨source, -, rfl⟩ := Option.map_eq_some_iff.mp isBody
      exact marked_markTries _ source
    rw [marked_visited marked mode body isTry, tryMode_eq_none, effect_any, ← Bool.not_eq_true,
      any_sources_iff, not_or, not_exists]
    simp only [not_and]

end Aholyc.CallGraph
