import Aholyc.LlMarks
import Aholyc.LlSim

/-!
# The handler stack of the LLVM code

At every step of a run `hc_frames` holds the frames of the dynamic `try`
statements whose bodies are open, those of the running activation above those
of the activations that wait for it, as long as no jump to a user label leaves
or enters such a body.
-/

namespace Aholyc.LlBalance

open Aholyc.Lib Aholyc.Effects Aholyc.Eval Aholyc.Source Aholyc.CRun Aholyc.LlBackend Aholyc.LlRun
  Aholyc.LlMarks
open Aholyc.LlSim (Assembles)

variable {M : Type}

/-- The frames of the bodies that are open at an instruction of an activation. -/
def framesAt (act : Nat) (code : List LlInstr) (pc : Nat) : List Frame :=
  (openAt code pc).map fun n => ⟨act, n⟩

def stackFrames (stack : List (Waiting M)) : List Frame :=
  stack.flatMap fun w => framesAt w.act w.code w.pc

theorem framesAt_length (act : Nat) (code : List LlInstr) (pc : Nat) :
    (framesAt act code pc).length = (openAt code pc).length :=
  List.length_map _

def Holds : List Frame → Rt M → Prop
  | [], t => t.ntry = 0
  | f :: fs, t => t.ntry = fs.length + 1 ∧ t.frames fs.length = f ∧ Holds fs t.pop

variable {fs : List Frame}

theorem Holds.ntry {t : Rt M} (holds : Holds fs t) : t.ntry = fs.length := by
  cases fs with
  | nil => exact holds
  | cons f fs => exact holds.1

theorem Holds.congr {t u : Rt M} (holds : Holds fs t) (ntry : u.ntry = t.ntry)
    (frames : ∀ i : Int, i < t.ntry → u.frames i = t.frames i) : Holds fs u := by
  induction fs generalizing t u with
  | nil => exact ntry.trans holds
  | cons f fs ih =>
    obtain ⟨count, top, rest⟩ := holds
    refine ⟨ntry.trans count, ?_, ih rest ?_ ?_⟩
    · rw [frames _ (by omega), top]
    · show u.ntry - 1 = t.ntry - 1
      rw [ntry]
    · intro i low
      have below : i < t.ntry - 1 := low
      exact frames i (by omega)

theorem Holds.setMem {t : Rt M} (m : M) (holds : Holds fs t) : Holds fs (t.setMem m) :=
  holds.congr rfl fun _ _ => rfl

theorem Holds.note {t : Rt M} (e : Event) (holds : Holds fs t) : Holds fs (t.note e) :=
  holds.congr rfl fun _ _ => rfl

theorem Holds.push {t : Rt M} (f : Frame) (holds : Holds fs t) : Holds (f :: fs) (t.push f) := by
  have count := holds.ntry
  refine ⟨?_, ?_, holds.congr ?_ ?_⟩
  · show t.ntry + 1 = fs.length + 1
    rw [count]
  · show Function.update t.frames t.ntry f fs.length = f
    rw [← count, Function.update_self]
  · show t.ntry + 1 - 1 = t.ntry
    omega
  · intro i low
    show Function.update t.frames t.ntry f i = t.frames i
    exact Function.update_of_ne (by omega) _ _

def Unwinds (x : CStop) (t : Rt M) : List Frame → Prop
  | [] => x = .unhandled ∧ Holds [] t
  | f :: fs => x = .unwind f ∧ Holds fs t

theorem Unwinds.setMem {x : CStop} {t : Rt M} (m : M) (unwinds : Unwinds x t fs) :
    Unwinds x (t.setMem m) fs := by
  cases fs with
  | nil => exact ⟨unwinds.1, unwinds.2.setMem m⟩
  | cons f fs => exact ⟨unwinds.1, unwinds.2.setMem m⟩

theorem Holds.unwind {t : Rt M} (holds : Holds fs t) : Unwinds t.unwind.1 t.unwind.2 fs := by
  cases fs with
  | nil =>
    have count : t.ntry = 0 := holds
    have none : t.unwind = (.unhandled, t) := by simp [Rt.unwind, count]
    rw [none]
    exact ⟨rfl, holds⟩
  | cons f fs =>
    obtain ⟨count, top, rest⟩ := holds
    have room : 0 < t.ntry := by omega
    have newest : t.ntry - 1 = fs.length := by omega
    have some : t.unwind = (.unwind f, t.pop) := by rw [Rt.unwind, if_pos room, newest, top]
    rw [some]
    exact ⟨rfl, rest⟩

/-- What an instruction may do after its operands: it goes on, or to a label
where the same bodies are open, or returns where none is. -/
def Allowed (code : List LlInstr) (pc : Nat) : Move → Prop
  | .fall => openAt code (pc + 1) = openAt code pc
  | .br l => Leads code pc l
  | .ret _ => openAt code pc = []

/-- The code of an activation and the place where it is. -/
structure Placed (code : List LlInstr) (pc : Nat) : Prop where
  right : ∀ pc i, code[pc]? = some i → Right code pc i
  chain : Chain code (openAt code pc)

structure Waits (w : Waiting M) : Prop where
  placed : Placed w.code w.pc
  goesOn : ∀ v m, (w.kont v m).ResultsIn (Allowed w.code w.pc)

/-- The activations of a stack, each older than the one above it; all of them
are older than `act`. -/
def Stacked : Nat → List (Waiting M) → Prop
  | _, [] => True
  | act, w :: stack => w.act < act ∧ Waits w ∧ Stacked w.act stack

theorem Stacked.mono {a b : Nat} {stack : List (Waiting M)} (stacked : Stacked a stack)
    (later : a ≤ b) : Stacked b stack := by
  cases stack with
  | nil => trivial
  | cons w stack => exact ⟨stacked.1.trans_le later, stacked.2⟩

theorem Stacked.frames {act : Nat} {stack : List (Waiting M)} (stacked : Stacked act stack)
    (f : Frame) (member : f ∈ stackFrames stack) : f.act < act := by
  induction stack generalizing act with
  | nil => cases member
  | cons w stack ih =>
    rcases List.mem_append.mp (show f ∈ framesAt w.act w.code w.pc ++ stackFrames stack from member)
      with own | below
    · obtain ⟨n, -, rfl⟩ := List.mem_map.mp own
      exact stacked.1
    · exact (ih stacked.2.2 below).trans stacked.1

def Balanced : Config M → Prop
  | .at act code pc stack t =>
      act < t.acts ∧ (∀ pc i, code[pc]? = some i → Right code pc i) ∧ Stacked act stack ∧
        Holds (framesAt act code pc ++ stackFrames stack) t
  | .busy act code pc comp stack t =>
      act < t.acts ∧ Placed code pc ∧ comp.ResultsIn (Allowed code pc) ∧ Stacked act stack ∧
        Holds (framesAt act code pc ++ stackFrames stack) t
  | .returned _ stack t => Stacked t.acts stack ∧ Holds (stackFrames stack) t
  | .raised x stack t =>
      Stacked t.acts stack ∧ Unwinds x t (stackFrames stack)
  | .stopped _ _ => True

/-- A jump to a user label with other bodies open than at the jump. -/
def Crosses : Config M → Prop
  | .at _ code pc _ _ =>
      ∃ l, code[pc]? = some (.br (.user l)) ∧ ¬Leads code pc (.user l)
  | _ => False

section Steps

variable (T : Target M) {act : Nat} {code : List LlInstr} {pc : Nat} {stack : List (Waiting M)}
  {t : Rt M}

theorem framesAt_eq {pc' : Nat} (same : openAt code pc' = openAt code pc) :
    framesAt act code pc' = framesAt act code pc := by
  unfold framesAt
  rw [same]

/-- A jump to a label at which the frames that are held are open. -/
theorem goTo_balanced {l : LlLabel} (young : act < t.acts)
    (right : ∀ pc i, code[pc]? = some i → Right code pc i) (stacked : Stacked act stack)
    (holds : Holds (framesAt act code (find code l) ++ stackFrames stack) t) :
    Balanced (goTo T act code l stack t) := by
  unfold goTo arrive
  split
  · exact ⟨young, right, stacked, holds.note _⟩
  · exact ⟨young, right, stacked, holds⟩

theorem raised_balanced (young : act < t.acts) (placed : Placed code pc)
    (stacked : Stacked act stack)
    (holds : Holds (framesAt act code pc ++ stackFrames stack) t)
    (kont : Word → M → Comp Callee Word M Move)
    (goesOn : ∀ v m, (kont v m).ResultsIn (Allowed code pc)) :
    Balanced (.raised t.unwind.1 (⟨act, code, pc, kont⟩ :: stack) t.unwind.2) := by
  refine ⟨⟨?_, ⟨placed, goesOn⟩, stacked⟩, holds.unwind⟩
  unfold Rt.unwind
  split
  · exact young
  · exact young

variable {i : LlInstr} {w : Waiting M}

theorem operands_allowed {comp : M → Comp Callee Word M Move} (fetch : code[pc]? = some i)
    (right : Right code pc i) (found : operands T i = some comp) (m : M) :
    (comp m).ResultsIn (Allowed code pc) := by
  have plain (unchanged : Plain i) : openAt code (pc + 1) = openAt code pc := by
    unfold openAt
    rw [markAt_succ fetch, scan_plain unchanged]
  cases i with
  | eval e =>
    cases found
    exact Comp.ResultsIn.bind _ fun _ _ => plain trivial
  | condBr cond yes no =>
    cases found
    apply Comp.ResultsIn.bind
    intro b m
    cases b
    · exact right.2.1
    · exact right.1
  | storeExcept as =>
    cases found
    exact Comp.ResultsIn.bind _ fun _ _ => plain trivial
  | ret e =>
    cases e with
    | none =>
      cases found
      exact right
    | some e =>
      cases found
      exact Comp.ResultsIn.bind _ fun _ _ => right
  | _ => cases found

theorem operands_chain {comp : M → Comp Callee Word M Move} (right : Right code pc i)
    (found : operands T i = some comp) : Chain code (openAt code pc) := by
  cases i with
  | eval e => exact right
  | condBr cond yes no => exact right.2.2
  | storeExcept as => exact right
  | ret e =>
    have none : openAt code pc = [] := right
    rw [none]
    trivial
  | _ => cases found

theorem execute_balanced (fetch : code[pc]? = some i) (young : act < t.acts)
    (right : ∀ pc i, code[pc]? = some i → Right code pc i) (stacked : Stacked act stack)
    (holds : Holds (framesAt act code pc ++ stackFrames stack) t)
    (inside : ∀ l, i = .br (.user l) → Leads code pc (.user l)) :
    Balanced (execute T act code pc stack t i) := by
  have here := right pc i fetch
  have plain (unchanged : Plain i) : openAt code (pc + 1) = openAt code pc := by
    unfold openAt
    rw [markAt_succ fetch, scan_plain unchanged]
  have busy (comp) (found : operands T i = some comp) :
      Balanced (.busy act code pc (comp t.m) stack t) :=
    ⟨young, ⟨right, operands_chain T here found⟩, operands_allowed T fetch here found t.m, stacked,
      holds⟩
  cases i with
  | label l => trivial
  | br l =>
    have leads : Leads code pc l := by
      cases l with
      | user l => exact inside l rfl
      | _ => exact here
    apply goTo_balanced T young right stacked
    rw [framesAt_eq leads]
    exact holds
  | eval e => exact busy _ rfl
  | condBr cond yes no => exact busy _ rfl
  | storeExcept as => exact busy _ rfl
  | ret e =>
    cases e with
    | none => exact busy _ rfl
    | some e => exact busy _ rfl
  | setjmp body site =>
    simp only [execute]
    split
    · trivial
    · have young' : act < (t.push ⟨act, site⟩).acts := young
      apply goTo_balanced T young' right stacked
      have entered : openAt code (find code body) = site :: openAt code pc := here
      unfold framesAt
      rw [entered]
      exact holds.push _
  | tryPop =>
    obtain ⟨n, popped⟩ := here
    have held := holds
    unfold framesAt at held
    rw [popped] at held
    exact ⟨young, right, stacked, held.2.2⟩
  | testExcept uncaught done =>
    simp only [execute]
    split
    · have young' : act < (t.note (.leave true)).acts := young
      apply goTo_balanced T young' right stacked
      rw [framesAt_eq here.1]
      exact holds.note _
    · have young' : act < (t.note (.leave false)).acts := young
      apply goTo_balanced T young' right stacked
      rw [framesAt_eq here.2]
      exact holds.note _
  | throwAgain =>
    have young' : act < (t.setMem (T.setExcept (T.exceptCh t.m) t.m)).acts := young
    exact raised_balanced young' ⟨right, here⟩ stacked (holds.setMem _) _ fun _ _ => trivial
  | asm a =>
    have young' : act < (t.setMem (T.asm a t.m).1).acts := young
    simp only [execute]
    split
    · exact raised_balanced young' ⟨right, here⟩ stacked (holds.setMem _) _ fun _ _ => trivial
    · refine ⟨young, right, stacked, ?_⟩
      rw [framesAt_eq (plain trivial)]
      exact holds.setMem _

theorem move_balanced {mv : Move} (young : act < t.acts) (placed : Placed code pc)
    (stacked : Stacked act stack) (allowed : Allowed code pc mv)
    (holds : Holds (framesAt act code pc ++ stackFrames stack) t) :
    Balanced (move T act code pc stack t mv) := by
  cases mv with
  | fall =>
    refine ⟨young, placed.right, stacked, ?_⟩
    rw [framesAt_eq allowed]
    exact holds
  | br l =>
    apply goTo_balanced T young placed.right stacked
    rw [framesAt_eq allowed]
    exact holds
  | ret v =>
    have none : openAt code pc = [] := allowed
    unfold framesAt at holds
    rw [none] at holds
    exact ⟨stacked.mono young.le, holds.setMem _⟩

theorem answered_balanced {a : Answer Word CStop (Rt M)} (young : w.act < t.acts) (waits : Waits w)
    (stacked : Stacked w.act stack)
    (holds : Holds (framesAt w.act w.code w.pc ++ stackFrames stack) t)
    (answer : (∃ v m, a = .ret v (t.setMem m)) ∨ (∃ m, a = raised (t.setMem m)) ∨
      ∃ m, a = .abort .exit (t.setMem m)) : Balanced (answered w stack a) := by
  rcases answer with ⟨v, m, rfl⟩ | ⟨m, rfl⟩ | ⟨m, rfl⟩
  · exact ⟨young, waits.placed, waits.goesOn v _, stacked, holds.setMem m⟩
  · have young' : w.act < (t.setMem m).acts := young
    have left := raised_balanced young' waits.placed stacked (holds.setMem m) w.kont waits.goesOn
    have same : answered w stack (raised (t.setMem m) : Answer Word CStop (Rt M)) =
        .raised (t.setMem m).unwind.1 (w :: stack) (t.setMem m).unwind.2 := by
      unfold raised Rt.unwind
      split <;> rfl
    rw [same]
    exact left
  · trivial

variable {pick : TryMode → TryMode} {prog : Program}

theorem enter_balanced {fn : Func} {body : Stmt} {as : List Word}
    (users : (body.keptLabels pick).Nodup) (stacked : Stacked t.acts stack)
    (holds : Holds (stackFrames stack) t) : Balanced (enter T pick fn body as stack t) := by
  refine ⟨Nat.lt_succ_self _, body_right pick body users, stacked, ?_⟩
  exact holds.congr rfl fun _ _ => rfl

theorem external_answers (func : String) (as : List Word) :
    (∃ v m, CRun.external T func as t = .ret v (t.setMem m)) ∨
      (∃ m, CRun.external T func as t = raised (t.setMem m)) ∨
        ∃ m, CRun.external T func as t = .abort .exit (t.setMem m) := by
  unfold CRun.external
  split
  · exact .inr (.inl ⟨_, rfl⟩)
  · split
    · exact .inl ⟨_, _, rfl⟩
    · exact .inr (.inl ⟨_, rfl⟩)
    · exact .inr (.inr ⟨_, rfl⟩)

theorem foreign_answers (a : Word) (as : List Word) :
    (∃ v m, CRun.foreign T a as t = .ret v (t.setMem m)) ∨
      (∃ m, CRun.foreign T a as t = raised (t.setMem m)) ∨
        ∃ m, CRun.foreign T a as t = .abort .exit (t.setMem m) := by
  unfold CRun.foreign
  split
  · exact .inl ⟨_, _, rfl⟩
  · exact .inr (.inl ⟨_, rfl⟩)
  · exact .inr (.inr ⟨_, rfl⟩)

theorem callSite_balanced {f : Callee} {as : List Word} (assembles : Assembles pick prog)
    (young : w.act < t.acts) (waits : Waits w) (stacked : Stacked w.act stack)
    (holds : Holds (framesAt w.act w.code w.pc ++ stackFrames stack) t) :
    Balanced (callSite T pick prog w f as stack t) := by
  unfold callSite
  split
  · rename_i fn body site
    exact enter_balanced T (assembles.dispatch site) ⟨young, waits, stacked⟩ holds
  · exact answered_balanced young waits stacked holds (external_answers T _ as)
  · exact answered_balanced young waits stacked holds (foreign_answers T _ as)
  · trivial

/-- A `longjmp` to the frame of an activation of the stack, or over one that
holds no frame. -/
theorem unwind_balanced {x : CStop} {u : Config M} (balanced : Balanced (.raised x (w :: stack) t))
    (next : step T pick prog (.raised x (w :: stack) t) = some u) : Balanced u := by
  obtain ⟨⟨young, waits, stacked⟩, unwinds⟩ := balanced
  have frames : stackFrames (w :: stack) = framesAt w.act w.code w.pc ++ stackFrames stack := rfl
  rw [frames] at unwinds
  have young' : w.act < (t.setMem (T.leave t.m)).acts := young
  cases opened : openAt w.code w.pc with
  | nil =>
    have none : framesAt w.act w.code w.pc = [] := by simp [framesAt, opened]
    rw [none, List.nil_append] at unwinds
    have below : Balanced (.raised x stack (t.setMem (T.leave t.m))) :=
      ⟨stacked.mono young'.le, unwinds.setMem _⟩
    cases held : stackFrames stack with
    | nil =>
      rw [held] at unwinds
      obtain ⟨rfl, -⟩ := unwinds
      cases next
      exact below
    | cons f fs =>
      rw [held] at unwinds
      obtain ⟨rfl, -⟩ := unwinds
      have older : f.act < w.act := stacked.frames f (by rw [held]; exact List.mem_cons_self)
      simp only [step, if_neg older.ne] at next
      cases next
      exact below
  | cons n ns =>
    have held : framesAt w.act w.code w.pc = ⟨w.act, n⟩ :: ns.map fun n => ⟨w.act, n⟩ := by
      simp [framesAt, opened]
    rw [held] at unwinds
    obtain ⟨rfl, holds⟩ := unwinds
    have chain := waits.placed.chain
    rw [opened] at chain
    simp only [step, if_true] at next
    cases next
    apply goTo_balanced T young waits.placed.right stacked
    unfold framesAt
    rw [show openAt w.code (find w.code (.block .catchL n)) = ns from chain.1]
    exact holds

theorem step_balanced (assembles : Assembles pick prog) {cfg cfg' : Config M}
    (balanced : Balanced cfg) (inside : ¬Crosses cfg) (next : step T pick prog cfg = some cfg') :
    Balanced cfg' := by
  cases cfg with
  | «at» act code pc stack t =>
    obtain ⟨young, right, stacked, holds⟩ := balanced
    simp only [step] at next
    split at next
    · rename_i i fetch
      cases next
      apply execute_balanced T fetch young right stacked holds
      rintro l rfl
      by_contra crossing
      exact inside ⟨l, fetch, crossing⟩
    · cases next
      trivial
  | busy act code pc comp stack t =>
    obtain ⟨young, placed, allowed, stacked, holds⟩ := balanced
    cases comp with
    | done mv m =>
      cases next
      have young' : act < (t.setMem m).acts := young
      exact move_balanced T young' placed stacked allowed (holds.setMem m)
    | stuck m =>
      cases next
      trivial
    | call f as m k =>
      cases next
      have young' : act < (t.setMem m).acts := young
      exact callSite_balanced T assembles young' ⟨placed, allowed⟩ stacked (holds.setMem m)
  | returned v stack t =>
    obtain ⟨stacked, holds⟩ := balanced
    cases stack with
    | nil => cases next
    | cons w stack =>
      cases next
      obtain ⟨young, waits, older⟩ := stacked
      exact ⟨young, waits.placed, waits.goesOn v t.m, older, holds⟩
  | raised x stack t =>
    cases stack with
    | nil => cases x <;> cases next
    | cons w stack => exact unwind_balanced T balanced next
  | stopped x t => cases next

theorem start_balanced (assembles : Assembles pick prog) (as : List Word) (empty : t.ntry = 0) :
    Balanced (start T pick prog as t) := by
  unfold start
  split
  · rename_i body defined
    have users := assembles prog.startup List.mem_cons_self body defined
    exact enter_balanced T users trivial empty
  · trivial

/-- A run in which no jump to a user label crosses the bounds of a body of a
dynamic `try`. -/
inductive Run (T : Target M) (pick : TryMode → TryMode) (prog : Program) :
    Config M → Config M → Prop where
  | refl (cfg) : Run T pick prog cfg cfg
  | tail {a b c} : Run T pick prog a b → ¬Crosses b → step T pick prog b = some c →
      Run T pick prog a c

theorem run_balanced (assembles : Assembles pick prog) {a b : Config M}
    (run : Run T pick prog a b) (balanced : Balanced a) : Balanced b := by
  induction run with
  | refl => exact balanced
  | tail _ inside next ih => exact step_balanced T assembles ih inside next

/-- The bodies of dynamic `try` statements that are open in the activations of
a stack. -/
def opened (stack : List (Waiting M)) : Nat :=
  (stack.map fun w => (openAt w.code w.pc).length).sum

theorem stackFrames_length (stack : List (Waiting M)) : (stackFrames stack).length = opened stack := by
  simp [stackFrames, opened, List.length_flatMap, framesAt]

end Steps

end Aholyc.LlBalance
