import Aholyc.LlCode
import Aholyc.CSim

/-!
# Which `try` bodies are open

A scan of the LLVM code of a function from its start: which dynamic `try`
statements are open at each instruction. In the code that the emitter writes
every branch keeps them, a `_setjmp` opens one, and a pop or a catch closes
one; only the branch of a `goto` may do otherwise.
-/

namespace Aholyc.LlMarks

open Aholyc.Lib.Code Aholyc.Effects Aholyc.LlBackend Aholyc.LlRun Aholyc.LlCode
open Aholyc.CBackend (CHandler)

/-- The catches of the dynamic `try` statements whose bodies are open, the
innermost first, and how many frames the code has popped since the last label. -/
structure Mark where
  tries : List Nat := []
  popped : Nat := 0

def Mark.scan (m : Mark) : LlInstr → Mark
  | .setjmp _ site => ⟨site :: m.tries, 0⟩
  | .tryPop => ⟨m.tries, m.popped + 1⟩
  | .label (.block .catchL n) =>
      ⟨if m.tries.head? = some n then m.tries.tail else m.tries, 0⟩
  | .label _ => ⟨m.tries, 0⟩
  | _ => m

def markAt (code : List LlInstr) (pc : Nat) : Mark := (code.take pc).foldl Mark.scan {}

/-- The dynamic `try` statements that are open at an instruction. -/
def openAt (code : List LlInstr) (pc : Nat) : List Nat :=
  (markAt code pc).tries.drop (markAt code pc).popped

variable {i : LlInstr} {p n : Nat} {l : LlLabel} {a : Emit}

theorem markAt_succ {code : List LlInstr} {pc : Nat} (fetch : code[pc]? = some i) :
    markAt code (pc + 1) = (markAt code pc).scan i := by
  unfold markAt
  rw [List.take_add_one, fetch, Option.toList_some, List.foldl_append]
  rfl

def Plain : LlInstr → Prop
  | .setjmp _ _ => False
  | .tryPop => False
  | .label _ => False
  | _ => True

theorem scan_plain (plain : Plain i) (m : Mark) : m.scan i = m := by
  cases i <;> first | rfl | cases plain

/-- At the catches of the open `try` statements those around them are open. -/
def Chain (code : List LlInstr) : List Nat → Prop
  | [] => True
  | n :: ns => openAt code (find code (.block .catchL n)) = ns ∧ Chain code ns

def Leads (code : List LlInstr) (pc : Nat) (l : LlLabel) : Prop :=
  openAt code (find code l) = openAt code pc

def Right (code : List LlInstr) (pc : Nat) : LlInstr → Prop
  | .br (.user _) => True
  | .br l => Leads code pc l
  | .condBr _ yes no => Leads code pc yes ∧ Leads code pc no ∧ Chain code (openAt code pc)
  | .setjmp body site => openAt code (find code body) = site :: openAt code pc
  | .tryPop => ∃ n, openAt code pc = n :: openAt code (pc + 1)
  | .testExcept uncaught done => Leads code pc uncaught ∧ Leads code pc done
  | .ret _ => openAt code pc = []
  | .label _ => True
  | .eval _ => Chain code (openAt code pc)
  | .storeExcept _ => Chain code (openAt code pc)
  | .throwAgain => Chain code (openAt code pc)
  | .asm _ => Chain code (openAt code pc)

def Covers (code : List LlInstr) (p p' : Nat) : Prop :=
  ∀ pc i, p ≤ pc → pc < p' → code[pc]? = some i → Right code pc i

variable {code : List LlInstr}

theorem Covers.nil (p : Nat) : Covers code p p := by
  intro pc i low high
  omega

theorem Covers.trans {p' p'' : Nat} (first : Covers code p p') (rest : Covers code p' p'') :
    Covers code p p'' := by
  intro pc i low high fetch
  rcases Nat.lt_or_ge pc p' with before | behind
  · exact first pc i low before fetch
  · exact rest pc i behind high fetch

theorem Covers.one (fetch : code[p]? = some i) (right : Right code p i) :
    Covers code p (p + 1) := by
  intro pc j low high there
  have same : pc = p := by omega
  subst same
  cases fetch.symm.trans there
  exact right

theorem right_br {pc : Nat} (leads : Leads code pc l) : Right code pc (.br l) := by
  cases l <;> trivial

/-- At the cursor the bodies of `ts` are open, and no frame of an open block is
popped. -/
structure Marked (code : List LlInstr) (q : Cursor) (ts : List Nat) : Prop where
  tries : (markAt code q.pos).tries = ts
  popped : q.gen.blockOpen = true → (markAt code q.pos).popped = 0
  old : ∀ n ∈ ts, n ≤ q.gen.nlab

section Pieces

variable {q : Cursor} {ts : List Nat}

theorem Marked.openAt (marked : Marked code q ts) (opened : q.gen.blockOpen = true) :
    openAt code q.pos = ts := by
  unfold LlMarks.openAt
  rw [marked.tries, marked.popped opened, List.drop_zero]

theorem Marked.fresh (marked : Marked code q ts) : q.gen.nlab + 1 ∉ ts := by
  intro member
  have old := marked.old _ member
  omega

theorem Marked.reserve (n : Nat) (marked : Marked code q ts) : Marked code (q.reserve n) ts :=
  ⟨marked.tries, marked.popped, fun m member => (marked.old m member).trans (Nat.le_add_right _ _)⟩

theorem mark_label (fetch : code[p]? = some (.label l))
    (other : ∀ n, l = .block .catchL n → (markAt code p).tries.head? ≠ some n) :
    markAt code (p + 1) = ⟨(markAt code p).tries, 0⟩ := by
  rw [markAt_succ fetch]
  unfold Mark.scan
  split
  · rename_i named
    cases named
  · rename_i named
    cases named
  · rename_i n named
    cases named
    rw [if_neg (other n rfl)]
  · rfl
  · rename_i named
    exact absurd rfl (named l)

theorem Marked.ensureBlock (marked : Marked code q ts)
    (written : Written code q Emit.ensureBlock) : Marked code (q.after Emit.ensureBlock) ts := by
  by_cases opened : q.gen.blockOpen = true
  · rw [after_ensure opened]
    exact marked
  unfold Written Emit.ensureBlock at written
  rw [if_neg opened, sits_cons] at written
  have mark := mark_label written.1 (by simp)
  rw [marked.tries] at mark
  unfold Cursor.after Emit.ensureBlock
  rw [if_neg opened]
  refine ⟨?_, fun _ => ?_, fun n member => (marked.old n member).trans (Nat.le_succ _)⟩
  · show (markAt code (q.pos + 1)).tries = ts
    rw [mark]
  · show (markAt code (q.pos + 1)).popped = 0
    rw [mark]

theorem Marked.close (marked : Marked code q ts) (plain : Plain i)
    (written : Written code q (Emit.close i)) : Marked code (q.after (Emit.close i)) ts := by
  have mark := markAt_succ (written_one written)
  rw [scan_plain plain] at mark
  refine ⟨?_, (fun opened => by cases opened), marked.old⟩
  show (markAt code (q.pos + 1)).tries = ts
  rw [mark, marked.tries]

theorem Marked.write (marked : Marked code q ts) (plain : Plain i)
    (written : Written code q (Emit.write [i])) : Marked code (q.after (Emit.write [i])) ts := by
  have mark := markAt_succ ((sits_cons _ _ _ _).mp written).1
  rw [scan_plain plain] at mark
  refine ⟨?_, fun opened => ?_, marked.old⟩
  · show (markAt code (q.pos + 1)).tries = ts
    rw [mark, marked.tries]
  · show (markAt code (q.pos + 1)).popped = 0
    rw [mark]
    exact marked.popped opened

theorem Marked.brTo (marked : Marked code q ts) (written : Written code q (Emit.brTo l)) :
    Marked code (q.after (Emit.brTo l)) ts := by
  obtain ⟨ensure, branch⟩ := (written_andThen _ _ _ _).mp written
  unfold Emit.brTo
  rw [after_andThen]
  exact (marked.ensureBlock ensure).close trivial branch

theorem label_fetch (written : Written code q (Emit.placeLabel l)) :
    ∃ p, code[p]? = some (.label l) ∧ (q.after (Emit.placeLabel l)).pos = p + 1 ∧
      (markAt code p).tries = (markAt code q.pos).tries := by
  by_cases opened : q.gen.blockOpen = true
  · unfold Written Emit.placeLabel at written
    rw [if_pos opened, List.singleton_append, sits_cons, sits_cons] at written
    refine ⟨q.pos + 1, written.2.1, ?_, ?_⟩
    · simp [Cursor.after, Emit.placeLabel, opened]
    · rw [markAt_succ written.1]
      rfl
  · unfold Written Emit.placeLabel at written
    rw [if_neg opened, List.nil_append, sits_cons] at written
    refine ⟨q.pos, written.1, ?_, rfl⟩
    simp [Cursor.after, Emit.placeLabel, opened]

theorem Marked.placeLabel (marked : Marked code q ts) (other : ∀ n, l = .block .catchL n → n ∉ ts)
    (written : Written code q (Emit.placeLabel l)) :
    Marked code (q.after (Emit.placeLabel l)) ts := by
  obtain ⟨p, fetch, next, same⟩ := label_fetch written
  have mark : markAt code (p + 1) = ⟨(markAt code p).tries, 0⟩ := by
    apply mark_label fetch
    intro n named first
    rw [same, marked.tries] at first
    exact other n named (List.mem_of_mem_head? (by rw [first]; rfl))
  refine ⟨?_, fun _ => ?_, marked.old⟩
  · rw [next, mark]
    exact same.trans marked.tries
  · rw [next, mark]

theorem Marked.closeTry (marked : Marked code q (n :: ts))
    (written : Written code q (Emit.placeLabel (.block .catchL n))) :
    Marked code (q.after (Emit.placeLabel (.block .catchL n))) ts := by
  obtain ⟨p, fetch, next, same⟩ := label_fetch written
  have mark : markAt code (p + 1) = ⟨ts, 0⟩ := by
    rw [markAt_succ fetch]
    simp [Mark.scan, same, marked.tries]
  refine ⟨?_, fun _ => ?_, fun m member => marked.old m (List.mem_cons_of_mem n member)⟩
  · rw [next, mark]
  · rw [next, mark]

theorem covers_ensure (written : Written code q Emit.ensureBlock) :
    Covers code q.pos (q.after Emit.ensureBlock).pos := by
  by_cases opened : q.gen.blockOpen = true
  · rw [after_ensure opened]
    exact Covers.nil _
  · unfold Written Emit.ensureBlock at written
    rw [if_neg opened, sits_cons] at written
    have one := Covers.one written.1 trivial
    simpa [Cursor.after, Emit.ensureBlock, opened] using one

theorem ensure_open (q : Cursor) : (q.after Emit.ensureBlock).gen.blockOpen = true := by
  unfold Cursor.after Emit.ensureBlock
  split <;> simp_all

theorem covers_brTo (marked : Marked code q ts) (written : Written code q (Emit.brTo l))
    (leads : openAt code (find code l) = ts) : Covers code q.pos (q.after (Emit.brTo l)).pos := by
  obtain ⟨ensure, branch⟩ := (written_andThen _ _ _ _).mp written
  unfold Emit.brTo
  rw [after_andThen]
  apply (covers_ensure ensure).trans
  apply Covers.one (written_one branch)
  apply right_br
  unfold Leads
  rw [leads, (marked.ensureBlock ensure).openAt (ensure_open q)]

theorem covers_close (written : Written code q (Emit.close i)) (right : Right code q.pos i) :
    Covers code q.pos (q.after (Emit.close i)).pos :=
  Covers.one (written_one written) right

theorem covers_write (written : Written code q (Emit.write [i])) (right : Right code q.pos i) :
    Covers code q.pos (q.after (Emit.write [i])).pos :=
  Covers.one ((sits_cons _ _ _ _).mp written).1 right

theorem openAt_placed (distinct : (labels LlInstr.placed code).Nodup)
    (written : Written code q (Emit.placeLabel l))
    (marked : Marked code (q.after (Emit.placeLabel l)) ts) : openAt code (find code l) = ts := by
  rw [find_placed distinct l written]
  exact marked.openAt rfl

theorem covers_label (distinct : (labels LlInstr.placed code).Nodup) (marked : Marked code q ts)
    (written : Written code q (Emit.placeLabel l))
    (later : q.gen.blockOpen = true → Marked code (q.after (Emit.placeLabel l)) ts) :
    Covers code q.pos (q.after (Emit.placeLabel l)).pos := by
  have whole := written
  by_cases opened : q.gen.blockOpen = true
  · unfold Written Emit.placeLabel at written
    rw [if_pos opened, List.singleton_append, sits_cons, sits_cons] at written
    have leads : Leads code q.pos l := by
      unfold Leads
      rw [openAt_placed distinct whole (later opened), marked.openAt opened]
    have both := (Covers.one written.1 (right_br leads)).trans (Covers.one written.2.1 trivial)
    simpa [Cursor.after, Emit.placeLabel, opened] using both
  · unfold Written Emit.placeLabel at written
    rw [if_neg opened, List.nil_append, sits_cons] at written
    have one := Covers.one written.1 trivial
    simpa [Cursor.after, Emit.placeLabel, opened] using one

end Pieces

/-- The catches of the handlers: of a dynamic one the frame is among `ts`. -/
def Hands (code : List LlInstr) : List CHandler → List Nat → Prop
  | [], ts => ts = []
  | h :: hs, ts =>
      if h.dynamic then
        ∃ ns, ts = h.label :: ns ∧ openAt code (find code (.block .catchL h.label)) = ns ∧
          Hands code hs ns
      else openAt code (find code (.block .catchL h.label)) = ts ∧ Hands code hs ts

theorem Hands.chain {hs : List CHandler} {ts : List Nat} (hands : Hands code hs ts) :
    Chain code ts := by
  induction hs generalizing ts with
  | nil =>
    cases hands
    trivial
  | cons h hs ih =>
    unfold Hands at hands
    split at hands
    · obtain ⟨ns, rfl, there, rest⟩ := hands
      exact ⟨there, ih rest⟩
    · exact ih hands.2

structure Under (code : List LlInstr) (q : Cursor) (ts : List Nat) : Prop where
  marked : Marked code q ts
  hands : Hands code q.gen.handlers ts
  depth : q.gen.tryDepth = ts.length

def Sound (code : List LlInstr) (a : Emit) : Prop :=
  ∀ q ts, Under code q ts → Written code q a → Covers code q.pos (q.after a).pos

/-- The part of the emitter leaves the bodies open that were open before. -/
def Keeps (code : List LlInstr) (a : Emit) : Prop :=
  ∀ q ts, Marked code q ts → Written code q a → Marked code (q.after a) ts

structure Part (code : List LlInstr) (kept : List String) (a : Emit) : Prop where
  emits : Emits [] kept a
  keeps : Keeps code a

section Parts

variable {q : Cursor} {ts : List Nat}

theorem Under.after {used : List LlLabel} {kept : List String} (under : Under code q ts)
    (emits : Emits used kept a) (marked : Marked code (q.after a) ts) :
    Under code (q.after a) ts where
  marked := marked
  hands := by
    have same : (q.after a).gen.handlers = q.gen.handlers := (emits q.gen).handlers
    rw [same]
    exact under.hands
  depth := by
    have same : (q.after a).gen.tryDepth = q.gen.tryDepth := (emits q.gen).tryDepth
    rw [same]
    exact under.depth

theorem Under.reserve (n : Nat) (under : Under code q ts) : Under code (q.reserve n) ts :=
  ⟨under.marked.reserve n, under.hands, under.depth⟩

theorem Under.ensureBlock (under : Under code q ts) (written : Written code q Emit.ensureBlock) :
    Under code (q.after Emit.ensureBlock) ts :=
  under.after Emits.ensureBlock (under.marked.ensureBlock written)

theorem Under.close (under : Under code q ts) (written : Written code q (Emit.close i))
    (plain : Plain i) : Under code (q.after (Emit.close i)) ts := by
  apply under.after (Emits.close i _) (under.marked.close plain written)
  cases i <;> first | rfl | cases plain

theorem Under.brTo (under : Under code q ts) (written : Written code q (Emit.brTo l)) :
    Under code (q.after (Emit.brTo l)) ts :=
  under.after (Emits.brTo l) (under.marked.brTo written)

theorem Under.part {kept : List String} (under : Under code q ts) (part : Part code kept a)
    (written : Written code q a) : Under code (q.after a) ts :=
  under.after part.emits (part.keeps q ts under.marked written)

theorem Under.placeLabel (under : Under code q ts) (quiet : Quiet l)
    (written : Written code q (Emit.placeLabel l)) :
    Under code (q.after (Emit.placeLabel l)) ts := by
  apply under.after (Emits.placeLabel l) (under.marked.placeLabel _ written)
  rintro n rfl
  cases quiet

theorem covers_quiet (distinct : (labels LlInstr.placed code).Nodup) (under : Under code q ts)
    (quiet : Quiet l) (written : Written code q (Emit.placeLabel l)) :
    Covers code q.pos (q.after (Emit.placeLabel l)).pos :=
  covers_label distinct under.marked written fun _ => (under.placeLabel quiet written).marked

/-- A branch on a condition, at the end of an open block. -/
theorem right_condBr (under : Under code q ts) (opened : q.gen.blockOpen = true) (cond : Expr)
    {yes no : LlLabel} (isTrue : openAt code (find code yes) = ts)
    (isFalse : openAt code (find code no) = ts) : Right code q.pos (.condBr cond yes no) := by
  have here := under.marked.openAt opened
  refine ⟨?_, ?_, ?_⟩
  · exact isTrue.trans here.symm
  · exact isFalse.trans here.symm
  · rw [here]
    exact under.hands.chain

end Parts

section Constructs

variable {thn els : Emit} {kept kept' : List String}

theorem sound_skip : Sound code Emit.skip :=
  fun _ _ _ _ => Covers.nil _

theorem sound_single (right : ∀ pc, Chain code (openAt code pc) → Right code pc i) :
    Sound code (.all [Emit.ensureBlock, Emit.write [i]]) := by
  intro q ts under written
  simp only [written_cons, after_cons, after_nil] at written ⊢
  obtain ⟨ensure, instr, -⟩ := written
  have here := under.ensureBlock ensure
  have chain : Chain code (openAt code (q.after Emit.ensureBlock).pos) := by
    rw [here.marked.openAt (ensure_open q)]
    exact under.hands.chain
  exact (covers_ensure ensure).trans (covers_write instr (right _ chain))

theorem sound_seq (thnKept : Part code kept thn) (first : Sound code thn) (rest : Sound code els) :
    Sound code (.all [thn, els]) := by
  intro q ts under written
  simp only [written_cons, after_cons, after_nil] at written ⊢
  obtain ⟨writtenFirst, writtenRest, -⟩ := written
  have later := under.part thnKept writtenFirst
  exact (first q ts under writtenFirst).trans (rest _ ts later writtenRest)

variable {tl el hl bl done : LlLabel} {entered : Cursor}

theorem sound_if (distinct : (labels LlInstr.placed code).Nodup) (cond : Expr) {dl : LlLabel}
    (quiet : Quiet tl ∧ Quiet el ∧ Quiet dl) (thnKept : Part code kept thn)
    (elsKept : Part code kept' els) (thnSound : Sound code thn) (elsSound : Sound code els) :
    Sound code (.all [Emit.ensureBlock, Emit.close (.condBr cond tl el), Emit.placeLabel tl, thn,
      Emit.brTo dl, Emit.placeLabel el, els, Emit.brTo dl, Emit.placeLabel dl]) := by
  intro q ts under written
  simp only [written_cons, after_cons, after_nil] at written ⊢
  obtain ⟨ensure, test, thenLabel, thenPart, out, elseLabel, elsePart, out', endLabel, -⟩ := written
  have atTest := under.ensureBlock ensure
  have closed := atTest.close test trivial
  have atThen := closed.placeLabel quiet.1 thenLabel
  have atOut := atThen.part thnKept thenPart
  have closed' := atOut.brTo out
  have atElse := closed'.placeLabel quiet.2.1 elseLabel
  have atOut' := atElse.part elsKept elsePart
  have closed'' := atOut'.brTo out'
  have atEnd := closed''.placeLabel quiet.2.2 endLabel
  have toThen := openAt_placed distinct thenLabel atThen.marked
  have toElse := openAt_placed distinct elseLabel atElse.marked
  have toEnd := openAt_placed distinct endLabel atEnd.marked
  apply (covers_ensure ensure).trans
  apply (covers_close test (right_condBr atTest (ensure_open q) cond toThen toElse)).trans
  apply (covers_quiet distinct closed quiet.1 thenLabel).trans
  apply (thnSound _ ts atThen thenPart).trans
  apply (covers_brTo atOut.marked out toEnd).trans
  apply (covers_quiet distinct closed' quiet.2.1 elseLabel).trans
  apply (elsSound _ ts atElse elsePart).trans
  apply (covers_brTo atOut'.marked out' toEnd).trans
  exact covers_quiet distinct closed'' quiet.2.2 endLabel

theorem sound_when (distinct : (labels LlInstr.placed code).Nodup) (cond : Expr) {dl : LlLabel}
    (quiet : Quiet tl ∧ Quiet dl) (thnKept : Part code kept thn) (thnSound : Sound code thn) :
    Sound code (.all [Emit.ensureBlock, Emit.close (.condBr cond tl dl), Emit.placeLabel tl, thn,
      Emit.brTo dl, Emit.placeLabel dl]) := by
  intro q ts under written
  simp only [written_cons, after_cons, after_nil] at written ⊢
  obtain ⟨ensure, test, thenLabel, thenPart, out, endLabel, -⟩ := written
  have atTest := under.ensureBlock ensure
  have closed := atTest.close test trivial
  have atThen := closed.placeLabel quiet.1 thenLabel
  have atOut := atThen.part thnKept thenPart
  have closed' := atOut.brTo out
  have atEnd := closed'.placeLabel quiet.2 endLabel
  have toThen := openAt_placed distinct thenLabel atThen.marked
  have toEnd := openAt_placed distinct endLabel atEnd.marked
  apply (covers_ensure ensure).trans
  apply (covers_close test (right_condBr atTest (ensure_open q) cond toThen toEnd)).trans
  apply (covers_quiet distinct closed quiet.1 thenLabel).trans
  apply (thnSound _ ts atThen thenPart).trans
  apply (covers_brTo atOut.marked out toEnd).trans
  exact covers_quiet distinct closed' quiet.2 endLabel

theorem sound_while (distinct : (labels LlInstr.placed code).Nodup) (cond : Expr)
    (quiet : Quiet hl ∧ Quiet bl ∧ Quiet el) (thnKept : Part code kept thn)
    (thnSound : Sound code thn) :
    Sound code (.all [Emit.brTo hl, Emit.placeLabel hl, Emit.close (.condBr cond bl el),
      Emit.placeLabel bl, thn, Emit.brTo hl, Emit.placeLabel el]) := by
  intro q ts under written
  simp only [written_cons, after_cons, after_nil] at written ⊢
  obtain ⟨into, headLabel, test, bodyLabel, bodyPart, again, endLabel, -⟩ := written
  have entered := under.brTo into
  have atHead := entered.placeLabel quiet.1 headLabel
  have closed := atHead.close test trivial
  have atBody := closed.placeLabel quiet.2.1 bodyLabel
  have atAgain := atBody.part thnKept bodyPart
  have closed' := atAgain.brTo again
  have atEnd := closed'.placeLabel quiet.2.2 endLabel
  have toHead := openAt_placed distinct headLabel atHead.marked
  have toBody := openAt_placed distinct bodyLabel atBody.marked
  have toEnd := openAt_placed distinct endLabel atEnd.marked
  apply (covers_brTo under.marked into toHead).trans
  apply (covers_quiet distinct entered quiet.1 headLabel).trans
  apply (covers_close test (right_condBr atHead rfl cond toBody toEnd)).trans
  apply (covers_quiet distinct closed quiet.2.1 bodyLabel).trans
  apply (thnSound _ ts atBody bodyPart).trans
  apply (covers_brTo atAgain.marked again toHead).trans
  exact covers_quiet distinct closed' quiet.2.2 endLabel

theorem sound_doWhile (distinct : (labels LlInstr.placed code).Nodup) (cond : Expr)
    (quiet : Quiet bl ∧ Quiet hl ∧ Quiet el) (thnKept : Part code kept thn)
    (thnSound : Sound code thn) :
    Sound code (.all [Emit.brTo bl, Emit.placeLabel bl, thn, Emit.brTo hl, Emit.placeLabel hl,
      Emit.close (.condBr cond bl el), Emit.placeLabel el]) := by
  intro q ts under written
  simp only [written_cons, after_cons, after_nil] at written ⊢
  obtain ⟨into, bodyLabel, bodyPart, again, headLabel, test, endLabel, -⟩ := written
  have entered := under.brTo into
  have atBody := entered.placeLabel quiet.1 bodyLabel
  have atAgain := atBody.part thnKept bodyPart
  have closed := atAgain.brTo again
  have atHead := closed.placeLabel quiet.2.1 headLabel
  have closed' := atHead.close test trivial
  have atEnd := closed'.placeLabel quiet.2.2 endLabel
  have toBody := openAt_placed distinct bodyLabel atBody.marked
  have toHead := openAt_placed distinct headLabel atHead.marked
  have toEnd := openAt_placed distinct endLabel atEnd.marked
  apply (covers_brTo under.marked into toBody).trans
  apply (covers_quiet distinct entered quiet.1 bodyLabel).trans
  apply (thnSound _ ts atBody bodyPart).trans
  apply (covers_brTo atAgain.marked again toHead).trans
  apply (covers_quiet distinct closed quiet.2.1 headLabel).trans
  apply (covers_close test (right_condBr atHead rfl cond toBody toEnd)).trans
  exact covers_quiet distinct closed' quiet.2.2 endLabel

/-- The test of a `for` is a branch on a condition, or a jump to the body. -/
structure Tests (code : List LlInstr) (bl el : LlLabel) (test : Emit) : Prop where
  part : Part code [] test
  covers : ∀ {q ts}, Under code q ts → q.gen.blockOpen = true → Written code q test →
    openAt code (find code bl) = ts → openAt code (find code el) = ts →
    Covers code q.pos (q.after test).pos

theorem sound_for (distinct : (labels LlInstr.placed code).Nodup) {init inc test : Emit}
    (quiet : Quiet hl ∧ Quiet bl ∧ Quiet el) (tests : Tests code bl el test)
    {keptInit : List String} (initKept : Part code keptInit init) (thnKept : Part code kept thn)
    (incKept : Part code kept' inc) (initSound : Sound code init) (thnSound : Sound code thn)
    (incSound : Sound code inc) :
    Sound code (.all [init, Emit.brTo hl, Emit.placeLabel hl, test, Emit.placeLabel bl, thn, inc,
      Emit.brTo hl, Emit.placeLabel el]) := by
  intro q ts under written
  simp only [written_cons, after_cons, after_nil] at written ⊢
  obtain ⟨initPart, into, headLabel, testPart, bodyLabel, bodyPart, incPart, again, endLabel, -⟩ :=
    written
  have atInto := under.part initKept initPart
  have entered := atInto.brTo into
  have atHead := entered.placeLabel quiet.1 headLabel
  have closed := atHead.part tests.part testPart
  have atBody := closed.placeLabel quiet.2.1 bodyLabel
  have atInc := atBody.part thnKept bodyPart
  have atAgain := atInc.part incKept incPart
  have closed' := atAgain.brTo again
  have atEnd := closed'.placeLabel quiet.2.2 endLabel
  have toHead := openAt_placed distinct headLabel atHead.marked
  have toBody := openAt_placed distinct bodyLabel atBody.marked
  have toEnd := openAt_placed distinct endLabel atEnd.marked
  apply (initSound q ts under initPart).trans
  apply (covers_brTo atInto.marked into toHead).trans
  apply (covers_quiet distinct entered quiet.1 headLabel).trans
  apply (tests.covers atHead rfl testPart toBody toEnd).trans
  apply (covers_quiet distinct closed quiet.2.1 bodyLabel).trans
  apply (thnSound _ ts atBody bodyPart).trans
  apply (incSound _ ts atInc incPart).trans
  apply (covers_brTo atAgain.marked again toHead).trans
  exact covers_quiet distinct closed' quiet.2.2 endLabel

theorem sound_goto (l : String) : Sound code (Emit.brTo (.user l)) := by
  intro q ts under written
  obtain ⟨ensure, branch⟩ := (written_andThen _ _ _ _).mp written
  unfold Emit.brTo
  rw [after_andThen]
  exact (covers_ensure ensure).trans (covers_close branch trivial)

theorem sound_label (distinct : (labels LlInstr.placed code).Nodup) (l : String) :
    Sound code (Emit.placeLabel (.user l)) :=
  fun _ _ under written =>
    covers_quiet distinct under (show Quiet (.user l) from trivial) written

theorem sound_throw (e args : Expr) : Sound code (emitThrow e args) := by
  intro q ts under written
  have call : Sound code (.all [Emit.ensureBlock, Emit.write [.eval e]]) :=
    sound_single fun _ chain => chain
  cases handlers : q.gen.handlers with
  | nil =>
    have same : emitThrow e args q.gen = Emit.all [Emit.ensureBlock, Emit.write [.eval e]] q.gen :=
      by simp [emitThrow, handlers]
    rw [after_congr same]
    exact call q ts under ((written_congr same).mp written)
  | cons h hs =>
    cases dynamic : h.dynamic with
    | true =>
      have same : emitThrow e args q.gen =
          Emit.all [Emit.ensureBlock, Emit.write [.eval e]] q.gen := by
        simp [emitThrow, handlers, dynamic]
      rw [after_congr same]
      exact call q ts under ((written_congr same).mp written)
    | false =>
      have same : emitThrow e args q.gen = Emit.all [Emit.ensureBlock,
          Emit.write [.storeExcept args], Emit.brTo (.block .catchL h.label)] q.gen := by
        simp [emitThrow, handlers, dynamic]
      have hands := under.hands
      rw [handlers] at hands
      simp only [Hands, dynamic, Bool.false_eq_true, if_false] at hands
      rw [after_congr same]
      rw [written_congr same] at written
      simp only [written_cons, after_cons, after_nil] at written ⊢
      obtain ⟨ensure, store, out, -⟩ := written
      have here := under.ensureBlock ensure
      have chain : Right code (q.after Emit.ensureBlock).pos (.storeExcept args) := by
        show Chain code (openAt code (q.after Emit.ensureBlock).pos)
        rw [here.marked.openAt (ensure_open q)]
        exact under.hands.chain
      apply (covers_ensure ensure).trans
      apply (covers_write store chain).trans
      exact covers_brTo (here.marked.write trivial store) out hands.1

theorem pops_marked {ts : List Nat} (n k p : Nat) (room : k + n ≤ ts.length)
    (mark : markAt code p = ⟨ts, k⟩) (written : Sits code p (List.replicate n .tryPop)) :
    markAt code (p + n) = ⟨ts, k + n⟩ ∧ Covers code p (p + n) := by
  induction n generalizing k p with
  | zero => exact ⟨mark, Covers.nil p⟩
  | succ n ih =>
    rw [List.replicate_succ, sits_cons] at written
    have next : markAt code (p + 1) = ⟨ts, k + 1⟩ := by
      rw [markAt_succ written.1, mark]
      rfl
    obtain ⟨last, covers⟩ := ih (k + 1) (p + 1) (by omega) next written.2
    have inside : k < ts.length := by omega
    have pops : Right code p .tryPop := by
      refine ⟨ts[k], ?_⟩
      unfold openAt
      rw [mark, next]
      exact List.drop_eq_getElem_cons inside
    have position : p + 1 + n = p + (n + 1) := by omega
    have count : k + 1 + n = k + (n + 1) := by omega
    rw [position] at last covers
    rw [count] at last
    exact ⟨last, (Covers.one written.1 pops).trans covers⟩

/-- All frames of the function are popped before it returns. -/
theorem sound_return (lhs : Option Expr) {q : Cursor} {ts : List Nat} (under : Under code q ts)
    (written : Written code q (.all [Emit.ensureBlock,
      Emit.write (List.replicate q.gen.tryDepth .tryPop), Emit.close (.ret lhs)])) :
    Covers code q.pos (q.after (.all [Emit.ensureBlock,
      Emit.write (List.replicate q.gen.tryDepth .tryPop), Emit.close (.ret lhs)])).pos := by
  simp only [written_cons, after_cons, after_nil] at written ⊢
  obtain ⟨ensure, pops, ret, -⟩ := written
  have here := (under.marked.ensureBlock ensure)
  have mark : markAt code (q.after Emit.ensureBlock).pos = ⟨ts, 0⟩ := by
    have tries := here.tries
    have popped := here.popped (ensure_open q)
    cases found : markAt code (q.after Emit.ensureBlock).pos with
    | mk tries' popped' =>
      rw [found] at tries popped
      rw [← tries, ← popped]
  obtain ⟨last, covers⟩ := pops_marked q.gen.tryDepth 0 _ (by rw [under.depth]; omega) mark pops
  have position : ((q.after Emit.ensureBlock).after
      (Emit.write (List.replicate q.gen.tryDepth .tryPop))).pos =
        (q.after Emit.ensureBlock).pos + q.gen.tryDepth := by
    simp [Cursor.after, Emit.write]
  apply (covers_ensure ensure).trans
  rw [← position] at covers last
  apply covers.trans
  apply covers_close ret
  show openAt code _ = []
  unfold openAt
  rw [last, under.depth]
  simp

theorem keeps_skip : Keeps code Emit.skip := fun _ _ marked _ => marked

theorem keeps_cons {rest : List Emit} (first : Keeps code a) (others : Keeps code (.all rest)) :
    Keeps code (.all (a :: rest)) := by
  intro q ts marked written
  rw [written_cons] at written
  rw [after_cons]
  exact others _ ts (first q ts marked written.1) written.2

theorem keeps_ensure : Keeps code Emit.ensureBlock := fun _ _ marked written =>
  marked.ensureBlock written

theorem keeps_brTo (l : LlLabel) : Keeps code (Emit.brTo l) := fun _ _ marked written =>
  marked.brTo written

theorem keeps_close (plain : Plain i) : Keeps code (Emit.close i) :=
  fun _ _ marked written => marked.close plain written

theorem keeps_write (plain : Plain i) : Keeps code (Emit.write [i]) :=
  fun _ _ marked written => marked.write plain written

theorem keeps_label (quiet : Quiet l) : Keeps code (Emit.placeLabel l) := by
  intro q ts marked written
  apply marked.placeLabel _ written
  rintro n rfl
  cases quiet

theorem keeps_catchEnd (quiet : Quiet done) : Keeps code (emitCatchEnd done) := by
  have again : Keeps code (emitCatchEnd.again done) := by
    intro q ts marked written
    unfold emitCatchEnd.again at written ⊢
    rw [written_andThen] at written
    rw [after_andThen]
    have parts : Keeps code (.all [Emit.close (.testExcept
        (.block .rethrow ((q.after Emit.ensureBlock).gen.nlab + 1)) done),
        Emit.placeLabel (.block .rethrow ((q.after Emit.ensureBlock).gen.nlab + 1)),
        Emit.write [.throwAgain], Emit.brTo done, Emit.placeLabel done]) := by
      apply keeps_cons (keeps_close (by simp [Plain]))
      apply keeps_cons (keeps_label (by simp [Quiet]))
      apply keeps_cons (keeps_write (by simp [Plain]))
      apply keeps_cons (keeps_brTo done)
      exact keeps_cons (keeps_label quiet) keeps_skip
    have next := (marked.ensureBlock written.1).reserve 1
    exact parts ((q.after Emit.ensureBlock).reserve 1) ts next written.2
  intro q ts marked written
  rcases emitCatchEnd_cases q.gen done with same | ⟨h, hs, -, -, same⟩
  · rw [after_congr same]
    exact again q ts marked ((written_congr same).mp written)
  rw [after_congr same]
  rw [written_congr same] at written
  have parts : Keeps code (.all [Emit.ensureBlock,
      Emit.close (.testExcept (.block .catchL h.label) done), Emit.placeLabel done]) := by
    apply keeps_cons keeps_ensure
    apply keeps_cons (keeps_close (by simp [Plain]))
    exact keeps_cons (keeps_label quiet) keeps_skip
  exact parts q ts marked written

theorem sound_catchEnd (distinct : (labels LlInstr.placed code).Nodup) (quiet : Quiet done) :
    Sound code (emitCatchEnd done) := by
  intro q ts under written
  rcases emitCatchEnd_cases q.gen done with same | ⟨h, hs, handlers, dynamic, same⟩
  · rw [after_congr same]
    rw [written_congr same] at written
    unfold emitCatchEnd.again at written ⊢
    rw [written_andThen] at written
    rw [after_andThen]
    apply (covers_ensure written.1).trans
    have here := (under.ensureBlock written.1).reserve 1
    have parts : Written code ((q.after Emit.ensureBlock).reserve 1) (.all _) := written.2
    show Covers code ((q.after Emit.ensureBlock).reserve 1).pos
      (((q.after Emit.ensureBlock).reserve 1).after (.all _)).pos
    simp only [written_cons, after_cons, after_nil] at parts ⊢
    obtain ⟨test, rethrow, throws, out, endLabel, -⟩ := parts
    have closed := here.close test trivial
    have quietRethrow : Quiet (.block .rethrow ((q.after Emit.ensureBlock).gen.nlab + 1)) := trivial
    have atThrow := closed.placeLabel quietRethrow rethrow
    have atOut := atThrow.marked.write (show Plain .throwAgain from trivial) throws
    have closed' := atOut.brTo out
    have atEnd := keeps_label quiet _ ts closed' endLabel
    have toEnd := openAt_placed distinct endLabel atEnd
    have toThrow := openAt_placed distinct rethrow atThrow.marked
    have open' := here.marked.openAt (ensure_open q)
    apply (covers_close test ⟨toThrow.trans open'.symm, toEnd.trans open'.symm⟩).trans
    apply (covers_quiet distinct closed quietRethrow rethrow).trans
    have chain := under.hands.chain
    rw [← atThrow.marked.openAt rfl] at chain
    apply (covers_write throws chain).trans
    apply (covers_brTo atOut out toEnd).trans
    exact covers_label distinct closed' endLabel fun _ => atEnd
  · have hands := under.hands
    rw [handlers] at hands
    simp only [Hands, dynamic, Bool.false_eq_true, if_false] at hands
    rw [after_congr same]
    rw [written_congr same] at written
    simp only [written_cons, after_cons, after_nil] at written ⊢
    obtain ⟨ensure, test, endLabel, -⟩ := written
    have here := under.ensureBlock ensure
    have closed := here.close test trivial
    have atEnd := closed.placeLabel quiet endLabel
    have toEnd := openAt_placed distinct endLabel atEnd.marked
    have open' := here.marked.openAt (ensure_open q)
    apply (covers_ensure ensure).trans
    apply (covers_close test ⟨hands.1.trans open'.symm, toEnd.trans open'.symm⟩).trans
    exact covers_quiet distinct closed quiet endLabel

/-- At the end of a `try` the same bodies are open as where its end begins. -/
theorem openAt_done (distinct : (labels LlInstr.placed code).Nodup) {q : Cursor} {ts : List Nat}
    (quiet : Quiet done) (marked : Marked code q ts) (ending : Written code q (emitCatchEnd done)) :
    openAt code (find code done) = ts := by
  have after := keeps_catchEnd quiet q ts marked ending
  obtain ⟨q', placed, same⟩ := catchEnd_placed ending
  rw [same] at after
  exact openAt_placed distinct placed after

/-- What a `try` with a branch leaves open, up to the label of its catch. -/
theorem branchTry_marked {q : Cursor} {ts : List Nat} (fresh : n ∉ ts) (thnKeeps : Keeps code thn)
    (marked : Marked code q ts) (bodyPart : Written code q (Emit.under false n thn))
    (out : Written code (q.after (Emit.under false n thn)) (Emit.brTo done))
    (catchLabel : Written code ((q.after (Emit.under false n thn)).after (Emit.brTo done))
      (Emit.placeLabel (.block .catchL n))) :
    Marked code (q.after (Emit.under false n thn)) ts ∧
      Marked code (((q.after (Emit.under false n thn)).after (Emit.brTo done)).after
        (Emit.placeLabel (.block .catchL n))) ts := by
  have entered : Marked code ⟨q.pos, q.gen.pushHandler false n⟩ ts :=
    ⟨marked.tries, marked.popped, marked.old⟩
  have inside := thnKeeps _ ts entered bodyPart
  have outside : Marked code (q.after (Emit.under false n thn)) ts :=
    ⟨inside.tries, inside.popped, inside.old⟩
  refine ⟨outside, (outside.brTo out).placeLabel ?_ catchLabel⟩
  intro m named
  cases named
  exact fresh

theorem keeps_branchTry {q : Cursor} {ts : List Nat} (quiet : Quiet done) (fresh : n ∉ ts)
    (thnKeeps : Keeps code thn) (elsKeeps : Keeps code els) (marked : Marked code q ts)
    (written : Written code q (.all [Emit.under false n thn, Emit.brTo done,
      Emit.placeLabel (.block .catchL n), els, emitCatchEnd done])) :
    Marked code (q.after (.all [Emit.under false n thn, Emit.brTo done,
      Emit.placeLabel (.block .catchL n), els, emitCatchEnd done])) ts := by
  simp only [written_cons, after_cons, after_nil] at written ⊢
  obtain ⟨bodyPart, out, catchLabel, elsPart, ending, -⟩ := written
  obtain ⟨-, caught⟩ := branchTry_marked fresh thnKeeps marked bodyPart out catchLabel
  exact keeps_catchEnd quiet _ ts (elsKeeps _ ts caught elsPart) ending

theorem sound_branchTry (distinct : (labels LlInstr.placed code).Nodup) {q : Cursor} {ts : List Nat}
    (quiet : Quiet done) (fresh : n ∉ ts) (thnKept : Part code kept thn)
    (elsKept : Part code kept' els) (thnSound : Sound code thn) (elsSound : Sound code els)
    (under : Under code q ts)
    (written : Written code q (.all [Emit.under false n thn, Emit.brTo done,
      Emit.placeLabel (.block .catchL n), els, emitCatchEnd done])) :
    Covers code q.pos (q.after (.all [Emit.under false n thn, Emit.brTo done,
      Emit.placeLabel (.block .catchL n), els, emitCatchEnd done])).pos := by
  simp only [written_cons, after_cons, after_nil] at written ⊢
  obtain ⟨bodyPart, out, catchLabel, elsPart, ending, -⟩ := written
  obtain ⟨outside, caught⟩ :=
    branchTry_marked fresh thnKept.keeps under.marked bodyPart out catchLabel
  have atOut := under.after (Emits.under false n thnKept.emits) outside
  have closed := atOut.brTo out
  have atCatch := closed.after (Emits.placeLabel (.block .catchL n)) caught
  have atEnding := atCatch.part elsKept elsPart
  have toCatch := openAt_placed distinct catchLabel caught
  have entered : Under code ⟨q.pos, q.gen.pushHandler false n⟩ ts := by
    refine ⟨⟨under.marked.tries, under.marked.popped, under.marked.old⟩, ?_, under.depth⟩
    exact ⟨toCatch, under.hands⟩
  have toEnd := openAt_done distinct quiet atEnding.marked ending
  have inside := thnSound _ ts entered bodyPart
  have body : Covers code q.pos (q.after (Emit.under false n thn)).pos := inside
  apply body.trans
  apply (covers_brTo atOut.marked out toEnd).trans
  apply (covers_label distinct closed.marked catchLabel fun _ => caught).trans
  apply (elsSound _ ts atCatch elsPart).trans
  exact sound_catchEnd distinct quiet _ ts atEnding ending

theorem Marked.setjmp {q : Cursor} {ts : List Nat} (marked : Marked code q ts)
    (old : n ≤ q.gen.nlab) (written : Written code q (Emit.close (.setjmp tl n))) :
    Marked code (q.after (Emit.close (.setjmp tl n))) (n :: ts) := by
  have mark := markAt_succ (written_one written)
  refine ⟨?_, (fun opened => by cases opened), ?_⟩
  · show (markAt code (q.pos + 1)).tries = n :: ts
    rw [mark, ← marked.tries]
    rfl
  · intro m member
    rcases List.mem_cons.mp member with rfl | before
    · exact old
    · exact marked.old m before

/-- The body of a dynamic `try`, from the label behind the `_setjmp` to the
label of the catch. -/
structure Closes (code : List LlInstr) (n : Nat) (ts : List Nat) (entered : Cursor) (thn : Emit)
    (done : LlLabel) : Prop where
  atPop : Marked code ((entered.after (.deeper (.under true n thn))).after
    Emit.ensureBlock) (n :: ts)
  popped : markAt code (((entered.after (.deeper (.under true n thn))).after
    Emit.ensureBlock).after (Emit.write [.tryPop])).pos = ⟨n :: ts, 1⟩
  closed : Marked code ((((entered.after (.deeper (.under true n thn))).after
    Emit.ensureBlock).after (Emit.write [.tryPop])).after (Emit.brTo done)) (n :: ts)
  caught : Marked code (((((entered.after (.deeper (.under true n thn))).after
    Emit.ensureBlock).after (Emit.write [.tryPop])).after (Emit.brTo done)).after
      (Emit.placeLabel (.block .catchL n))) ts

theorem closes {ts : List Nat} (thnKeeps : Keeps code thn) (marked : Marked code entered (n :: ts))
    (body : Written code entered (.deeper (.under true n thn)))
    (ensure : Written code (entered.after (.deeper (.under true n thn))) Emit.ensureBlock)
    (pop : Written code ((entered.after (.deeper (.under true n thn))).after Emit.ensureBlock)
      (Emit.write [.tryPop]))
    (out : Written code (((entered.after (.deeper (.under true n thn))).after
      Emit.ensureBlock).after (Emit.write [.tryPop])) (Emit.brTo done))
    (catchLabel : Written code ((((entered.after (.deeper (.under true n thn))).after
      Emit.ensureBlock).after (Emit.write [.tryPop])).after (Emit.brTo done))
      (Emit.placeLabel (.block .catchL n))) : Closes code n ts entered thn done := by
  have deeper : Marked code ⟨entered.pos,
      { entered.gen with tryDepth := entered.gen.tryDepth + 1 }.pushHandler true n⟩ (n :: ts) :=
    ⟨marked.tries, marked.popped, marked.old⟩
  have inside := thnKeeps _ _ deeper body
  have outside : Marked code (entered.after (.deeper (.under true n thn))) (n :: ts) :=
    ⟨inside.tries, inside.popped, inside.old⟩
  have atPop := outside.ensureBlock ensure
  have mark := markAt_succ ((sits_cons _ _ _ _).mp pop).1
  have popped : markAt code (((entered.after (.deeper (.under true n thn))).after
      Emit.ensureBlock).after (Emit.write [.tryPop])).pos = ⟨n :: ts, 1⟩ := by
    show markAt code (_ + 1) = _
    rw [mark]
    simp only [Mark.scan, atPop.tries, atPop.popped (ensure_open _)]
  have closed : Marked code ((((entered.after (.deeper (.under true n thn))).after
      Emit.ensureBlock).after (Emit.write [.tryPop])).after (Emit.brTo done)) (n :: ts) := by
    obtain ⟨again, branch⟩ := (written_andThen _ _ _ _).mp out
    have stays : (((entered.after (.deeper (.under true n thn))).after
      Emit.ensureBlock).after (Emit.write [.tryPop])).after Emit.ensureBlock =
        ((entered.after (.deeper (.under true n thn))).after
          Emit.ensureBlock).after (Emit.write [.tryPop]) := after_ensure (ensure_open _)
    rw [stays] at branch
    have end' := markAt_succ (written_one branch)
    rw [popped] at end'
    unfold Emit.brTo
    rw [after_andThen, stays]
    refine ⟨?_, (fun opened => by cases opened), atPop.old⟩
    show (markAt code (_ + 1)).tries = n :: ts
    rw [end']
    rfl
  exact ⟨atPop, popped, closed, closed.closeTry catchLabel⟩

/-- The pop takes the frame of the `try`, and leaves those around it. -/
theorem Closes.covers_pop {ts : List Nat} (closes : Closes code n ts entered thn done)
    (pop : Written code ((entered.after (.deeper (.under true n thn))).after Emit.ensureBlock)
      (Emit.write [.tryPop])) :
    Covers code ((entered.after (.deeper (.under true n thn))).after Emit.ensureBlock).pos
      (((entered.after (.deeper (.under true n thn))).after Emit.ensureBlock).after
        (Emit.write [.tryPop])).pos := by
  apply covers_write pop
  refine ⟨n, ?_⟩
  rw [closes.atPop.openAt (ensure_open _)]
  congr 1
  show ts = openAt code (((entered.after (.deeper (.under true n thn))).after
    Emit.ensureBlock).after (Emit.write [.tryPop])).pos
  unfold openAt
  rw [closes.popped]
  rfl

theorem Closes.covers_out {ts : List Nat} (closes : Closes code n ts entered thn done)
    (leads : openAt code (find code done) = ts)
    (out : Written code (((entered.after (.deeper (.under true n thn))).after
      Emit.ensureBlock).after (Emit.write [.tryPop])) (Emit.brTo done)) :
    Covers code (((entered.after (.deeper (.under true n thn))).after Emit.ensureBlock).after
      (Emit.write [.tryPop])).pos ((((entered.after (.deeper (.under true n thn))).after
        Emit.ensureBlock).after (Emit.write [.tryPop])).after (Emit.brTo done)).pos := by
  obtain ⟨again, branch⟩ := (written_andThen _ _ _ _).mp out
  unfold Emit.brTo
  rw [after_andThen]
  apply (covers_ensure again).trans
  apply covers_close branch
  apply right_br
  have stays : (((entered.after (.deeper (.under true n thn))).after
    Emit.ensureBlock).after (Emit.write [.tryPop])).after Emit.ensureBlock =
      ((entered.after (.deeper (.under true n thn))).after
        Emit.ensureBlock).after (Emit.write [.tryPop]) := after_ensure (ensure_open _)
  unfold Leads
  rw [leads, stays]
  unfold openAt
  rw [closes.popped]
  rfl

theorem keeps_dynamicTry (q : Cursor) {ts : List Nat} (quiet : Quiet tl ∧ Quiet done)
    (old : n ≤ q.gen.nlab) (thnKeeps : Keeps code thn) (elsKeeps : Keeps code els)
    (marked : Marked code q ts)
    (written : Written code q (.all [Emit.close (.setjmp tl n), Emit.placeLabel tl,
      .deeper (.under true n thn), Emit.ensureBlock, Emit.write [.tryPop], Emit.brTo done,
      Emit.placeLabel (.block .catchL n), els, emitCatchEnd done])) :
    Marked code (q.after (.all [Emit.close (.setjmp tl n), Emit.placeLabel tl,
      .deeper (.under true n thn), Emit.ensureBlock, Emit.write [.tryPop], Emit.brTo done,
      Emit.placeLabel (.block .catchL n), els, emitCatchEnd done])) ts := by
  simp only [written_cons, after_cons, after_nil] at written ⊢
  obtain ⟨setjmp, bodyLabel, body, ensure, pop, out, catchLabel, elsPart, ending, -⟩ := written
  have entered := keeps_label quiet.1 _ _ (marked.setjmp old setjmp) bodyLabel
  have closes := closes thnKeeps entered body ensure pop out catchLabel
  exact keeps_catchEnd quiet.2 _ ts (elsKeeps _ ts closes.caught elsPart) ending

theorem sound_dynamicTry (distinct : (labels LlInstr.placed code).Nodup) (q : Cursor)
    {ts : List Nat} (quiet : Quiet tl ∧ Quiet done) (old : n ≤ q.gen.nlab)
    (opened : q.gen.blockOpen = true) (thnKept : Part code kept thn) (elsKept : Part code kept' els)
    (thnSound : Sound code thn) (elsSound : Sound code els) (under : Under code q ts)
    (written : Written code q (.all [Emit.close (.setjmp tl n), Emit.placeLabel tl,
      .deeper (.under true n thn), Emit.ensureBlock, Emit.write [.tryPop], Emit.brTo done,
      Emit.placeLabel (.block .catchL n), els, emitCatchEnd done])) :
    Covers code q.pos (q.after (.all [Emit.close (.setjmp tl n), Emit.placeLabel tl,
      .deeper (.under true n thn), Emit.ensureBlock, Emit.write [.tryPop], Emit.brTo done,
      Emit.placeLabel (.block .catchL n), els, emitCatchEnd done])).pos := by
  simp only [written_cons, after_cons, after_nil] at written ⊢
  obtain ⟨setjmp, bodyLabel, body, ensure, pop, out, catchLabel, elsPart, ending, -⟩ := written
  have waiting := under.marked.setjmp old setjmp
  have entered := keeps_label quiet.1 _ _ waiting bodyLabel
  have closes := closes thnKept.keeps entered body ensure pop out catchLabel
  have toCatch := openAt_placed distinct catchLabel closes.caught
  have toBody := openAt_placed distinct bodyLabel entered
  have here := under.marked.openAt opened
  have emits : Emits [tl, .block .catchL n] kept (.all [Emit.close (.setjmp tl n),
      Emit.placeLabel tl, .deeper (.under true n thn), Emit.ensureBlock, Emit.write [.tryPop],
      Emit.brTo done, Emit.placeLabel (.block .catchL n)]) := by
    apply (Emits.close _ rfl).cons
    apply Emits.consLabel tl
    apply (Emits.deeper (Emits.under true n thnKept.emits)).consLast
    apply Emits.ensureBlock.cons
    apply (Emits.write _ rfl).cons
    apply (Emits.brTo done).cons
    exact Emits.consLabel _ .nil
  have atCatch := fun marked => under.after emits marked
  simp only [after_cons, after_nil] at atCatch
  have atEnding := (atCatch closes.caught).part elsKept elsPart
  have toEnd := openAt_done distinct quiet.2 atEnding.marked ending
  have toTry : Right code q.pos (.setjmp tl n) := by
    show openAt code (find code tl) = n :: openAt code q.pos
    rw [toBody, here]
  apply (covers_close setjmp toTry).trans
  apply (covers_label distinct waiting bodyLabel fun _ => entered).trans
  have inner : Under code ⟨((q.after (Emit.close (.setjmp tl n))).after
      (Emit.placeLabel tl)).pos, LlGen.pushHandler { ((q.after (Emit.close (.setjmp tl n))).after
        (Emit.placeLabel tl)).gen with tryDepth := q.gen.tryDepth + 1 } true n⟩ (n :: ts) := by
    refine ⟨⟨entered.tries, entered.popped, entered.old⟩, ?_, ?_⟩
    · exact ⟨ts, rfl, toCatch, under.hands⟩
    · rw [List.length_cons, ← under.depth]
      rfl
  have inside := thnSound _ _ inner body
  apply Covers.trans inside
  apply (covers_ensure ensure).trans
  apply (closes.covers_pop pop).trans
  apply (closes.covers_out toEnd out).trans
  apply (covers_label distinct closes.closed catchLabel fun opened => by cases opened).trans
  apply (elsSound _ ts (atCatch closes.caught) elsPart).trans
  exact sound_catchEnd distinct quiet.2 _ ts atEnding ending

theorem pops_keep {ts : List Nat} (n p : Nat) (tries : (markAt code p).tries = ts)
    (written : Sits code p (List.replicate n .tryPop)) : (markAt code (p + n)).tries = ts := by
  induction n generalizing p with
  | zero => exact tries
  | succ n ih =>
    rw [List.replicate_succ, sits_cons] at written
    have next : (markAt code (p + 1)).tries = ts := by
      rw [markAt_succ written.1, ← tries]
      rfl
    rw [← Nat.succ_add_eq_add_succ]
    exact ih (p + 1) next written.2

theorem keeps_return (lhs : Option Expr) {q : Cursor} {ts : List Nat} (marked : Marked code q ts)
    (written : Written code q (.all [Emit.ensureBlock,
      Emit.write (List.replicate q.gen.tryDepth .tryPop), Emit.close (.ret lhs)])) :
    Marked code (q.after (.all [Emit.ensureBlock,
      Emit.write (List.replicate q.gen.tryDepth .tryPop), Emit.close (.ret lhs)])) ts := by
  simp only [written_cons, after_cons, after_nil] at written ⊢
  obtain ⟨ensure, pops, ret, -⟩ := written
  have here := marked.ensureBlock ensure
  have last := pops_keep q.gen.tryDepth _ here.tries pops
  have mark := markAt_succ (written_one ret)
  have position : ((q.after Emit.ensureBlock).after
      (Emit.write (List.replicate q.gen.tryDepth .tryPop))).pos =
        (q.after Emit.ensureBlock).pos + q.gen.tryDepth := by
    simp [Cursor.after, Emit.write]
  refine ⟨?_, (fun opened => by cases opened), here.old⟩
  show (markAt code (_ + 1)).tries = ts
  rw [mark, position]
  exact last

theorem keeps_throw (e args : Expr) : Keeps code (emitThrow e args) := by
  intro q ts marked written
  have call : Keeps code (.all [Emit.ensureBlock, Emit.write [.eval e]]) :=
    keeps_cons keeps_ensure (keeps_cons (keeps_write trivial) keeps_skip)
  have branch : ∀ n, Keeps code (.all [Emit.ensureBlock, Emit.write [.storeExcept args],
      Emit.brTo (.block .catchL n)]) := fun n =>
    keeps_cons keeps_ensure (keeps_cons (keeps_write trivial) (keeps_cons (keeps_brTo _) keeps_skip))
  unfold Written emitThrow at written
  unfold Cursor.after emitThrow
  split at written
  · split at written
    · rename_i dynamic
      simp only [dynamic, if_true]
      exact call q ts marked written
    · rename_i h _ _ dynamic
      simp only [dynamic, Bool.false_eq_true, if_false]
      exact branch h.label q ts marked written
  · exact call q ts marked written

theorem tests_forTest (cond : Option Expr) :
    Tests code bl el (match cond with
      | some c => Emit.close (.condBr c bl el)
      | none => Emit.brTo bl) := by
  cases cond with
  | some c =>
    refine ⟨⟨Emits.close _ rfl, keeps_close trivial⟩, ?_⟩
    intro q ts under opened written toBody toEnd
    exact covers_close written (right_condBr under opened c toBody toEnd)
  | none =>
    refine ⟨⟨Emits.brTo bl, keeps_brTo bl⟩, ?_⟩
    intro q ts under opened written toBody toEnd
    exact covers_brTo under.marked written toBody

end Constructs

section Statements

variable (pick : TryMode → TryMode)

/-- A statement leaves the bodies open that were open before it. -/
theorem emit_keeps (s : Stmt) : Keeps code (emitStmt pick s) := by
  induction s with
  | null => exact keeps_skip
  | nop => exact keeps_skip
  | seq s next first rest => exact keeps_cons first (keeps_cons rest keeps_skip)
  | exprStmt e =>
    simp only [emitStmt]
    split
    · exact keeps_throw e _
    · exact keeps_cons keeps_ensure (keeps_cons (keeps_write trivial) keeps_skip)
  | block body ih => exact ih
  | ifStmt cond thn els ihThn ihEls =>
    intro q ts marked written
    simp only [emitStmt] at written ⊢
    have next := marked.reserve 3
    split at written
    · refine keeps_cons keeps_ensure ?_ (q.reserve 3) ts next written
      apply keeps_cons (keeps_close (by simp [Plain]))
      apply keeps_cons (keeps_label (by simp [Quiet]))
      apply keeps_cons ihThn
      apply keeps_cons (keeps_brTo _)
      exact keeps_cons (keeps_label (by simp [Quiet])) keeps_skip
    · refine keeps_cons keeps_ensure ?_ (q.reserve 3) ts next written
      apply keeps_cons (keeps_close (by simp [Plain]))
      apply keeps_cons (keeps_label (by simp [Quiet]))
      apply keeps_cons ihThn
      apply keeps_cons (keeps_brTo _)
      apply keeps_cons (keeps_label (by simp [Quiet]))
      apply keeps_cons ihEls
      apply keeps_cons (keeps_brTo _)
      exact keeps_cons (keeps_label (by simp [Quiet])) keeps_skip
  | whileStmt cond thn ih =>
    intro q ts marked written
    refine keeps_cons (keeps_brTo _) ?_ (q.reserve 3) ts (marked.reserve 3) written
    apply keeps_cons (keeps_label (by simp [Quiet]))
    apply keeps_cons (keeps_close (by simp [Plain]))
    apply keeps_cons (keeps_label (by simp [Quiet]))
    apply keeps_cons ih
    apply keeps_cons (keeps_brTo _)
    exact keeps_cons (keeps_label (by simp [Quiet])) keeps_skip
  | doWhile thn cond ih =>
    intro q ts marked written
    refine keeps_cons (keeps_brTo _) ?_ (q.reserve 3) ts (marked.reserve 3) written
    apply keeps_cons (keeps_label (by simp [Quiet]))
    apply keeps_cons ih
    apply keeps_cons (keeps_brTo _)
    apply keeps_cons (keeps_label (by simp [Quiet]))
    apply keeps_cons (keeps_close (by simp [Plain]))
    exact keeps_cons (keeps_label (by simp [Quiet])) keeps_skip
  | forStmt init cond inc thn ihInit ihInc ihThn =>
    intro q ts marked written
    refine keeps_cons ihInit ?_ (q.reserve 3) ts (marked.reserve 3) written
    apply keeps_cons (keeps_brTo _)
    apply keeps_cons (keeps_label (by simp [Quiet]))
    apply keeps_cons (tests_forTest cond).part.keeps
    apply keeps_cons (keeps_label (by simp [Quiet]))
    apply keeps_cons ihThn
    apply keeps_cons ihInc
    apply keeps_cons (keeps_brTo _)
    exact keeps_cons (keeps_label (by simp [Quiet])) keeps_skip
  | returnStmt lhs =>
    intro q ts marked written
    exact keeps_return lhs marked written
  | goto l => exact keeps_brTo _
  | label l => exact keeps_label (show Quiet (.user l) from trivial)
  | asmStmt a => exact keeps_cons keeps_ensure (keeps_cons (keeps_write trivial) keeps_skip)
  | tryStmt mode thn els ihThn ihEls =>
    intro q ts marked written
    simp only [emitStmt] at written ⊢
    cases picked : pick mode with
    | none =>
      simp only [picked] at written ⊢
      exact ihThn q ts marked written
    | branch =>
      simp only [picked] at written ⊢
      exact keeps_branchTry (by simp [Quiet]) marked.fresh ihThn ihEls (marked.reserve 2) written
    | dynamic =>
      simp only [picked] at written ⊢
      rw [written_andThen] at written
      rw [after_andThen]
      have here := (marked.ensureBlock written.1).reserve 3
      have old : (q.after Emit.ensureBlock).gen.nlab + 2 ≤
          ((q.after Emit.ensureBlock).reserve 3).gen.nlab := Nat.add_le_add_left (by decide) _
      exact keeps_dynamicTry ((q.after Emit.ensureBlock).reserve 3) (by simp [Quiet]) old ihThn
        ihEls here written.2

theorem emit_part (s : Stmt) : Part code (s.keptLabels pick) (emitStmt pick s) :=
  ⟨emit_emits pick s, emit_keeps pick s⟩

/-- Every instruction of a statement is right where it stands. -/
theorem emit_sound (distinct : (labels LlInstr.placed code).Nodup) (s : Stmt) :
    Sound code (emitStmt pick s) := by
  induction s with
  | null => exact sound_skip
  | nop => exact sound_skip
  | seq s next first rest => exact sound_seq (emit_part pick s) first rest
  | exprStmt e =>
    simp only [emitStmt]
    split
    · exact sound_throw e _
    · exact sound_single fun _ chain => chain
  | block body ih => exact ih
  | ifStmt cond thn els ihThn ihEls =>
    intro q ts under written
    simp only [emitStmt] at written ⊢
    split at written
    · exact sound_when distinct cond (by simp [Quiet]) (emit_part pick thn) ihThn (q.reserve 3) ts
        (under.reserve 3) written
    · exact sound_if distinct cond (by simp [Quiet]) (emit_part pick thn) (emit_part pick els)
        ihThn ihEls (q.reserve 3) ts (under.reserve 3) written
  | whileStmt cond thn ih =>
    intro q ts under written
    exact sound_while distinct cond (by simp [Quiet]) (emit_part pick thn) ih (q.reserve 3) ts
      (under.reserve 3) written
  | doWhile thn cond ih =>
    intro q ts under written
    exact sound_doWhile distinct cond (by simp [Quiet]) (emit_part pick thn) ih (q.reserve 3) ts
      (under.reserve 3) written
  | forStmt init cond inc thn ihInit ihInc ihThn =>
    intro q ts under written
    exact sound_for distinct (by simp [Quiet]) (tests_forTest cond) (emit_part pick init)
      (emit_part pick thn) (emit_part pick inc) ihInit ihThn ihInc (q.reserve 3) ts
      (under.reserve 3) written
  | returnStmt lhs =>
    intro q ts under written
    exact sound_return lhs under written
  | goto l => exact sound_goto l
  | label l => exact sound_label distinct l
  | asmStmt a => exact sound_single fun _ chain => chain
  | tryStmt mode thn els ihThn ihEls =>
    intro q ts under written
    simp only [emitStmt] at written ⊢
    cases picked : pick mode with
    | none =>
      simp only [picked] at written ⊢
      exact ihThn q ts under written
    | branch =>
      simp only [picked] at written ⊢
      exact sound_branchTry distinct (by simp [Quiet]) under.marked.fresh (emit_part pick thn)
        (emit_part pick els) ihThn ihEls (under.reserve 2) written
    | dynamic =>
      simp only [picked] at written ⊢
      rw [written_andThen] at written
      rw [after_andThen]
      have here := (under.ensureBlock written.1).reserve 3
      have old : (q.after Emit.ensureBlock).gen.nlab + 2 ≤
          ((q.after Emit.ensureBlock).reserve 3).gen.nlab := Nat.add_le_add_left (by decide) _
      apply (covers_ensure written.1).trans
      exact sound_dynamicTry distinct ((q.after Emit.ensureBlock).reserve 3) (by simp [Quiet]) old
        (ensure_open q)
        (emit_part pick thn) (emit_part pick els) ihThn ihEls here written.2

/-- Every instruction of a function is right where it stands. -/
theorem body_right (body : Stmt) (users : (body.keptLabels pick).Nodup) (pc : Nat) (i : LlInstr)
    (fetch : (emitBody pick body)[pc]? = some i) : Right (emitBody pick body) pc i := by
  have distinct := emitBody_distinct pick body users
  have under : Under (emitBody pick body) entry [] := ⟨⟨rfl, fun _ => rfl, by simp⟩, rfl, rfl⟩
  have written := body_written pick body
  have covers := emit_sound pick distinct body entry [] under written
  have marked := emit_keeps pick body entry [] under.marked written
  rcases body_fetch fetch with inside | ⟨rfl, rfl, opened⟩
  · exact covers pc i (Nat.zero_le pc) inside fetch
  · exact marked.openAt opened

end Statements

end Aholyc.LlMarks
