import Aholyc.LlRun

/-!
# Where the emitter writes

The cursor of the LLVM emitter: a position in the code of a function, and the
state of the generator there.
-/

namespace Aholyc.LlCode

open Aholyc.Lib.Code Aholyc.Effects Aholyc.LlBackend Aholyc.LlRun

/-- A place in the code, and the generator that writes there. -/
structure Cursor where
  pos : Nat
  gen : LlGen

def Cursor.after (a : Emit) (q : Cursor) : Cursor :=
  ⟨q.pos + (a q.gen).1.length, (a q.gen).2⟩

def Cursor.reserve (n : Nat) (q : Cursor) : Cursor := ⟨q.pos, q.gen.reserve n⟩

/-- The code at the cursor is what the part of the emitter writes. -/
def Written (code : List LlInstr) (q : Cursor) (a : Emit) : Prop := Sits code q.pos (a q.gen).1

def Quiet : LlLabel → Prop
  | .block .catchL _ => False
  | _ => True

theorem after_andThen (a b : Emit) (q : Cursor) :
    q.after (a.andThen b) = (q.after a).after b := by
  simp [Cursor.after, Emit.andThen, Nat.add_assoc]

theorem after_cons (a : Emit) (rest : List Emit) (q : Cursor) :
    q.after (.all (a :: rest)) = (q.after a).after (.all rest) :=
  after_andThen a _ q

@[simp] theorem after_nil (q : Cursor) : q.after (.all []) = q := rfl

theorem written_andThen (code : List LlInstr) (a b : Emit) (q : Cursor) :
    Written code q (a.andThen b) ↔ Written code q a ∧ Written code (q.after a) b :=
  sits_append code q.pos _ _

theorem written_cons (code : List LlInstr) (a : Emit) (rest : List Emit) (q : Cursor) :
    Written code q (.all (a :: rest)) ↔
      Written code q a ∧ Written code (q.after a) (.all rest) :=
  written_andThen code a _ q

section Cursors

variable {q : Cursor}

variable {code : List LlInstr}

theorem written_one {i : LlInstr} (written : Written code q (Emit.close i)) :
    code[q.pos]? = some i :=
  ((sits_cons code q.pos i []).mp written).1

theorem find_placed (distinct : (labels LlInstr.placed code).Nodup) (l : LlLabel)
    (written : Written code q (Emit.placeLabel l)) :
    find code l = (q.after (Emit.placeLabel l)).pos := by
  unfold Written Emit.placeLabel at written
  simp only [Cursor.after, Emit.placeLabel]
  rw [sits_append, sits_cons] at written
  rw [List.length_append, List.length_singleton, ← Nat.add_assoc]
  exact find_eq distinct written.2.1 rfl

theorem after_ensure (opened : q.gen.blockOpen = true) : q.after Emit.ensureBlock = q := by
  simp [Cursor.after, Emit.ensureBlock, opened]

theorem written_congr {a b : Emit} (same : a q.gen = b q.gen) :
    Written code q a ↔ Written code q b := by
  unfold Written
  rw [same]

theorem after_congr {a b : Emit} (same : a q.gen = b q.gen) : q.after a = q.after b := by
  unfold Cursor.after
  rw [same]

/-- The end of a catch, where the handler around it is that of a branch and
where it is not. -/
theorem emitCatchEnd_cases (g : LlGen) (done : LlLabel) :
    emitCatchEnd done g = emitCatchEnd.again done g ∨
      ∃ h hs, g.handlers = h :: hs ∧ h.dynamic = false ∧
        emitCatchEnd done g = Emit.all [Emit.ensureBlock,
          Emit.close (.testExcept (.block .catchL h.label) done), Emit.placeLabel done] g := by
  cases handlers : g.handlers with
  | nil => exact .inl (by simp [emitCatchEnd, handlers])
  | cons h hs =>
    cases dynamic : h.dynamic with
    | true => exact .inl (by simp [emitCatchEnd, handlers, dynamic])
    | false => exact .inr ⟨h, hs, rfl, dynamic, by simp [emitCatchEnd, handlers, dynamic]⟩

theorem catchEnd_placed {done : LlLabel} (written : Written code q (emitCatchEnd done)) :
    ∃ q' : Cursor, Written code q' (Emit.placeLabel done) ∧
      q.after (emitCatchEnd done) = q'.after (Emit.placeLabel done) := by
  rcases emitCatchEnd_cases q.gen done with again | ⟨h, hs, -, -, branch⟩
  · rw [written_congr again] at written
    rw [after_congr again]
    unfold emitCatchEnd.again at written ⊢
    rw [written_andThen] at written
    rw [after_andThen]
    have parts : Written code ((q.after Emit.ensureBlock).reserve 1) (.all _) := written.2
    simp only [written_cons] at parts
    obtain ⟨-, -, -, -, placed, -⟩ := parts
    refine ⟨_, placed, ?_⟩
    show ((q.after Emit.ensureBlock).reserve 1).after (.all _) = _
    simp only [after_cons, after_nil]
  · rw [written_congr branch] at written
    rw [after_congr branch]
    simp only [written_cons, after_cons, after_nil] at written ⊢
    exact ⟨_, written.2.2.1, rfl⟩

end Cursors

theorem forTest_emits (cond : Option Expr) (bl el : LlLabel) :
    Emits [] [] (match cond with
      | some c => Emit.close (.condBr c bl el)
      | none => Emit.brTo bl) := by
  cases cond with
  | some c => exact Emits.close _ rfl
  | none => exact Emits.brTo bl

def entry : Cursor := ⟨0, { blockOpen := true }⟩

theorem body_written (pick : TryMode → TryMode) (body : Stmt) :
    Written (emitBody pick body) entry (emitStmt pick body) :=
  ((sits_append _ 0 _ _).mp (sits_self (emitBody pick body))).1

/-- What `emit_func` writes when the last block is open. -/
theorem body_last (pick : TryMode → TryMode) (body : Stmt)
    (opened : (entry.after (emitStmt pick body)).gen.blockOpen = true) :
    (emitBody pick body)[(entry.after (emitStmt pick body)).pos]? =
      some (.ret none) := by
  have parts := ((sits_append _ 0 _ _).mp (sits_self (emitBody pick body))).2
  rw [show (emitStmt pick body { blockOpen := true }).2.blockOpen = true from opened]
    at parts
  exact ((sits_cons _ _ _ _).mp parts).1

/-- An instruction of the body stands in its code, or is the last `ret`. -/
theorem body_fetch {pick : TryMode → TryMode} {body : Stmt} {pc : Nat} {i : LlInstr}
    (fetch : (emitBody pick body)[pc]? = some i) :
    pc < (entry.after (emitStmt pick body)).pos ∨
      (pc = (entry.after (emitStmt pick body)).pos ∧ i = .ret none ∧
        (entry.after (emitStmt pick body)).gen.blockOpen = true) := by
  have position : (entry.after (emitStmt pick body)).pos =
      (emitStmt pick body { blockOpen := true }).1.length := Nat.zero_add _
  rw [position]
  unfold emitBody at fetch
  rcases Nat.lt_or_ge pc (emitStmt pick body { blockOpen := true }).1.length with inside | behind
  · exact .inl inside
  rw [List.getElem?_append_right behind] at fetch
  split at fetch
  · rename_i opened
    cases rest : pc - (emitStmt pick body { blockOpen := true }).1.length with
    | zero =>
      rw [rest] at fetch
      cases fetch
      exact .inr ⟨by omega, rfl, opened⟩
    | succ n =>
      rw [rest] at fetch
      cases fetch
  · cases fetch

end Aholyc.LlCode
