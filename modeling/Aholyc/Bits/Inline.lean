import Aholyc.Bits.Runtime

/-!
# The bit functions inline (src/back_ll.c)

`emit_bit_intrin` writes LLVM instructions in the place of a call. A register holds a word; of an
`i8` or `i1` the low bits count.
-/

namespace Aholyc.Bits

/-! ## The code -/

inductive Opcode where
  | ashr | lshr | shl | add | sub | and | or | xor
  deriving DecidableEq

inductive Operand where
  | temp (t : Nat)
  | word (w : BitVec 64)
  deriving DecidableEq

/-- The instructions that are written; `binary8` is of type `i8`, `isZero` is `icmp eq i64 _, 0`. -/
inductive Instr where
  | binary (t : Nat) (op : Opcode) (a b : Operand)
  | binary8 (t : Nat) (op : Opcode) (a b : Operand)
  | inttoptr (t : Nat) (a : Operand)
  | trunc (t : Nat) (a : Operand)
  | zext (t : Nat) (a : Operand)
  | load (t : Nat) (ptr : Operand)
  | store (a ptr : Operand)
  | atomicrmw (t : Nat) (op : Opcode) (ptr a : Operand)
  | ctpop (t : Nat) (a : Operand)
  | cttz (t : Nat) (a : Operand)
  | ctlz (t : Nat) (a : Operand)
  | isZero (t : Nat) (a : Operand)
  | select (t : Nat) (condition a b : Operand)
  deriving DecidableEq

structure LlGen where
  temps : Nat
  out : List Instr

abbrev Emit := StateM LlGen

def tmp : Emit Nat := modifyGet fun lg => (lg.temps + 1, { lg with temps := lg.temps + 1 })

def emit (instr : Instr) : Emit Unit := modify fun lg => { lg with out := lg.out ++ [instr] }

inductive Scan where
  | Bsf | Bsr | BCnt
  deriving DecidableEq

inductive BitName where
  | Bt | Btc | Btr | Bts | LBtc | LBtr | LBts
  deriving DecidableEq

def BitName.locked : BitName → Bool
  | LBtc | LBtr | LBts => true
  | Bt | Btc | Btr | Bts => false

def bitRmwOp : BitName → Option Opcode
  | .Bts | .LBts => some .or
  | .Btr | .LBtr => some .and
  | .Btc | .LBtc => some .xor
  | .Bt => none

def emitScan (nm : Scan) (v : Operand) : Emit Operand := do
  let t ← tmp
  if nm = .BCnt then
    emit (.ctpop t v)
    return .temp t
  else
    let fwd := nm = .Bsf
    emit (if fwd then .cttz t v else .ctlz t v)
    let pos ← if fwd then pure t else do
      let pos ← tmp
      emit (.binary pos .sub (.word 63) (.temp t))
      pure pos
    let c ← tmp
    emit (.isZero c v)
    let r ← tmp
    emit (.select r (.temp c) (.word (-1)) (.temp pos))
    return .temp r

def emitBitIntrin (nm : BitName) (p bit : Operand) : Emit Operand := do
  let off ← tmp
  emit (.binary off .ashr bit (.word 3))
  let ba ← tmp
  emit (.binary ba .add p (.temp off))
  let ptr ← tmp
  emit (.inttoptr ptr (.temp ba))
  let sh ← tmp
  emit (.binary sh .and bit (.word 7))
  let old ← tmp
  match bitRmwOp nm with
  | none => emit (.load old (.temp ptr))
  | some op =>
    let m ← tmp
    emit (.binary m .shl (.word 1) (.temp sh))
    let m ← if op = .and then do
      let inv ← tmp
      emit (.binary inv .xor (.temp m) (.word (-1)))
      pure inv
    else pure m
    let m8 ← tmp
    emit (.trunc m8 (.temp m))
    if nm.locked then
      emit (.atomicrmw old op (.temp ptr) (.temp m8))
    else
      emit (.load old (.temp ptr))
      let nw ← tmp
      emit (.binary8 nw op (.temp old) (.temp m8))
      emit (.store (.temp nw) (.temp ptr))
  let w ← tmp
  emit (.zext w (.temp old))
  let sv ← tmp
  emit (.binary sv .lshr (.temp w) (.temp sh))
  let r ← tmp
  emit (.binary r .and (.temp sv) (.word 1))
  return .temp r

/-! ## What the instructions do -/

structure State where
  regs : Nat → BitVec 64
  memory : Memory

namespace State

def eval (s : State) : Operand → BitVec 64
  | .temp t => s.regs t
  | .word w => w

def set (t : Nat) (w : BitVec 64) (s : State) : State :=
  { s with regs := Function.update s.regs t w }

end State

def Opcode.apply {w : Nat} (a b : BitVec w) : Opcode → BitVec w
  | ashr => a.sshiftRight b.toNat
  | lshr => a >>> b.toNat
  | shl => a <<< b.toNat
  | add => a + b
  | sub => a - b
  | and => a &&& b
  | or => a ||| b
  | xor => a ^^^ b

def low (a : BitVec 64) : BitVec 8 := a.setWidth 8

def exec (s : State) : Instr → State
  | .binary t op a b => s.set t (op.apply (s.eval a) (s.eval b))
  | .binary8 t op a b => s.set t ((op.apply (low (s.eval a)) (low (s.eval b))).setWidth 64)
  | .inttoptr t a => s.set t (s.eval a)
  | .trunc t a => s.set t ((low (s.eval a)).setWidth 64)
  | .zext t a => s.set t ((low (s.eval a)).setWidth 64)
  | .load t ptr => s.set t ((s.memory (s.eval ptr)).setWidth 64)
  | .store a ptr => { s with memory := Function.update s.memory (s.eval ptr) (low (s.eval a)) }
  | .atomicrmw t op ptr a =>
      { s.set t ((s.memory (s.eval ptr)).setWidth 64) with
        memory := Function.update s.memory (s.eval ptr)
          (op.apply (s.memory (s.eval ptr)) (low (s.eval a))) }
  | .ctpop t a => s.set t (s.eval a).cpop
  | .cttz t a => s.set t (s.eval a).ctz
  | .ctlz t a => s.set t (s.eval a).clz
  | .isZero t a => s.set t (if s.eval a = 0 then 1 else 0)
  | .select t condition a b => s.set t (if s.eval condition = 1 then s.eval a else s.eval b)

def run (code : List Instr) (s : State) : State := code.foldl exec s

@[simp] theorem set_regs_self (t : Nat) (w : BitVec 64) (s : State) : (s.set t w).regs t = w := by
  unfold State.set
  exact Function.update_self t w s.regs

@[simp] theorem set_regs_of_ne {t t' : Nat} (differs : t' ≠ t) (w : BitVec 64) (s : State) :
    (s.set t w).regs t' = s.regs t' := by
  unfold State.set
  exact Function.update_of_ne differs w s.regs

@[simp] theorem set_memory (t : Nat) (w : BitVec 64) (s : State) : (s.set t w).memory = s.memory := rfl

@[simp] theorem eval_temp (s : State) (t : Nat) : s.eval (.temp t) = s.regs t := rfl

@[simp] theorem eval_word (s : State) (w : BitVec 64) : s.eval (.word w) = w := rfl

@[simp] theorem low_setWidth (b : BitVec 8) : low (b.setWidth 64) = b := by
  unfold low
  rw [BitVec.setWidth_setWidth_of_le _ (by decide), BitVec.setWidth_eq]

theorem run_append (code more : List Instr) (s : State) :
    run (code ++ more) s = run more (run code s) := List.foldl_append

def Operand.Before (temps : Nat) (a : Operand) : Prop := ∀ t, a = .temp t → t ≤ temps

variable {n : Nat} {bit : BitVec 64}

theorem eval_set {t : Nat} {a : Operand} (before : a.Before n) (above : n < t) (w : BitVec 64)
    (s : State) : (s.set t w).eval a = s.eval a := by
  cases a with
  | temp t' =>
    have le := before t' rfl
    exact set_regs_of_ne (by omega) w s
  | word w => rfl

def function : BitName → Memory → BitVec 64 → BitVec 64 → BitVec 64 × Memory
  | .Bt => fun memory p bit => (Bt memory p bit, memory)
  | .Btc => Btc
  | .Btr => Btr
  | .Bts => Bts
  | .LBtc => LBtc
  | .LBtr => LBtr
  | .LBts => LBts

/-! ### The parts of the code -/

def addressing (n : Nat) (p bit : Operand) : List Instr :=
  [.binary (n + 1) .ashr bit (.word 3), .binary (n + 2) .add p (.temp (n + 1)),
    .inttoptr (n + 3) (.temp (n + 2)), .binary (n + 4) .and bit (.word 7)]

theorem addressing_runs {p bit : Operand} (isP : p.Before n) (isBit : bit.Before n) (s : State) :
    (∀ t ≤ n, (run (addressing n p bit) s).regs t = s.regs t) ∧
      (run (addressing n p bit) s).memory = s.memory ∧
      (run (addressing n p bit) s).regs (n + 3) = byteOf (s.eval p) (s.eval bit) ∧
      (run (addressing n p bit) s).regs (n + 4) = s.eval bit &&& 7 := by
  simp only [addressing, run, List.foldl_cons, List.foldl_nil, exec, Opcode.apply, eval_temp,
    eval_word, set_regs_self, set_memory, eval_set isP (Nat.lt_succ_self n),
    eval_set isBit (Nat.lt_succ_self n), eval_set isBit (by omega : n < n + 2),
    eval_set isBit (by omega : n < n + 3)]
  refine ⟨?_, trivial, ?_, trivial⟩
  · intro t le
    rw [set_regs_of_ne (by omega), set_regs_of_ne (by omega), set_regs_of_ne (by omega),
      set_regs_of_ne (by omega)]
  · rw [set_regs_of_ne (by omega), set_regs_self]
    exact congrArg (s.eval p + ·) (sshiftRight_three (s.eval bit))

/-- The instructions that take the bit out of the byte in `old`. -/
def extracting (n k : Nat) : List Instr :=
  [.zext (k + 1) (.temp (n + 5)), .binary (k + 2) .lshr (.temp (k + 1)) (.temp (n + 4)),
    .binary (k + 3) .and (.temp (k + 2)) (.word 1)]

theorem extract_bit (b : BitVec 8) {i : Nat} (small : i < 8) :
    b.setWidth 64 >>> i &&& 1 = truth (b.getLsbD i) := by
  have masked := BitVec.and_one_eq_setWidth_ofBool_getLsbD (x := b.setWidth 64 >>> i)
  rw [BitVec.getLsbD_ushiftRight, Nat.add_zero, BitVec.getLsbD_setWidth,
    decide_eq_true (by omega : i < 64), Bool.true_and] at masked
  have one : (1 : BitVec 64) = 1#64 := rfl
  rw [one, masked]
  cases b.getLsbD i <;> rfl

theorem extracting_runs {k : Nat} (later : n + 5 ≤ k) (s : State) {b : BitVec 8}
    (isOld : s.regs (n + 5) = b.setWidth 64) (isShift : s.regs (n + 4) = bit &&& 7) :
    (∀ t ≤ n, (run (extracting n k) s).regs t = s.regs t) ∧
      (run (extracting n k) s).memory = s.memory ∧
      (run (extracting n k) s).regs (k + 3) = truth (b.getLsbD (indexOf bit)) := by
  simp only [extracting, run, List.foldl_cons, List.foldl_nil, exec, Opcode.apply, eval_temp,
    eval_word, set_regs_self, set_memory]
  refine ⟨?_, trivial, ?_⟩
  · intro t le
    rw [set_regs_of_ne (by omega), set_regs_of_ne (by omega), set_regs_of_ne (by omega)]
  · rw [set_regs_of_ne (by omega), isOld, low_setWidth, isShift, and_seven,
      extract_bit b (indexOf_lt bit)]

def masking (n : Nat) (op : Opcode) : List Instr :=
  if op = .and then
    [.binary (n + 6) .shl (.word 1) (.temp (n + 4)),
      .binary (n + 7) .xor (.temp (n + 6)) (.word (-1)), .trunc (n + 8) (.temp (n + 7))]
  else [.binary (n + 6) .shl (.word 1) (.temp (n + 4)), .trunc (n + 7) (.temp (n + 6))]

def maskTemp (n : Nat) (op : Opcode) : Nat := if op = .and then n + 8 else n + 7

def maskOf (op : Opcode) (k : Nat) : BitVec 8 :=
  if op = .and then ~~~BitVec.twoPow 8 k else BitVec.twoPow 8 k

theorem masks {k : Nat} (small : k < 8) :
    (1 <<< k : BitVec 64).setWidth 8 = BitVec.twoPow 8 k ∧
      (1 <<< k ^^^ -1 : BitVec 64).setWidth 8 = ~~~BitVec.twoPow 8 k := by
  revert k
  decide

theorem masking_runs (n : Nat) (op : Opcode) (s : State) (isShift : s.regs (n + 4) = bit &&& 7) :
    (∀ t < n + 6, (run (masking n op) s).regs t = s.regs t) ∧
      (run (masking n op) s).memory = s.memory ∧
      (run (masking n op) s).regs (maskTemp n op) =
        (maskOf op (indexOf bit)).setWidth 64 := by
  have known := masks (indexOf_lt bit)
  unfold masking maskTemp maskOf
  by_cases isAnd : op = .and
  · simp only [if_pos isAnd, run, List.foldl_cons, List.foldl_nil, exec, Opcode.apply, eval_temp,
      eval_word, set_regs_self, set_memory, isShift, and_seven, low]
    refine ⟨?_, trivial, congrArg (BitVec.setWidth 64) known.2⟩
    intro t less
    rw [set_regs_of_ne (by omega), set_regs_of_ne (by omega), set_regs_of_ne (by omega)]
  · simp only [if_neg isAnd, run, List.foldl_cons, List.foldl_nil, exec, Opcode.apply, eval_temp,
      eval_word, set_regs_self, set_memory, isShift, and_seven, low]
    refine ⟨?_, trivial, congrArg (BitVec.setWidth 64) known.1⟩
    intro t less
    rw [set_regs_of_ne (by omega), set_regs_of_ne (by omega)]

/-- The instructions that change the byte, with the old one in a register; at `m` is the mask. -/
def updating (n m : Nat) (op : Opcode) (locked : Bool) : List Instr :=
  if locked then [.atomicrmw (n + 5) op (.temp (n + 3)) (.temp m)]
  else
    [.load (n + 5) (.temp (n + 3)), .binary8 (m + 1) op (.temp (n + 5)) (.temp m),
      .store (.temp (m + 1)) (.temp (n + 3))]

theorem updating_runs {m : Nat} (later : n + 5 < m) (op : Opcode) (locked : Bool) (s : State)
    {b : BitVec 64} {mask : BitVec 8} (isByte : s.regs (n + 3) = b)
    (isMask : s.regs m = mask.setWidth 64) :
    (∀ t ≤ n, (run (updating n m op locked) s).regs t = s.regs t) ∧
      (run (updating n m op locked) s).regs (n + 4) = s.regs (n + 4) ∧
      (run (updating n m op locked) s).regs (n + 5) = (s.memory b).setWidth 64 ∧
      (run (updating n m op locked) s).memory =
        Function.update s.memory b (op.apply (s.memory b) mask) := by
  unfold updating
  cases locked with
  | true =>
    simp only [if_pos, run, List.foldl_cons, List.foldl_nil, exec, eval_temp, isByte, isMask,
      low_setWidth, set_regs_self]
    refine ⟨?_, set_regs_of_ne (by omega) _ s, trivial, trivial⟩
    intro t le
    exact set_regs_of_ne (by omega) _ s
  | false =>
    have differs : m ≠ n + 5 := by omega
    have differs' : n + 3 ≠ m + 1 := by omega
    have differs'' : n + 3 ≠ n + 5 := by omega
    have differs₃ : n + 4 ≠ m + 1 := by omega
    have differs₄ : n + 4 ≠ n + 5 := by omega
    have differs₅ : n + 5 ≠ m + 1 := by omega
    simp only [Bool.false_eq_true, if_false, run, List.foldl_cons, List.foldl_nil, exec, eval_temp,
      isByte, isMask, low_setWidth, set_regs_self, set_regs_of_ne differs, set_regs_of_ne differs',
      set_regs_of_ne differs'', set_regs_of_ne differs₃, set_regs_of_ne differs₄,
      set_regs_of_ne differs₅, set_memory]
    refine ⟨?_, trivial, trivial, trivial⟩
    intro t le
    rw [set_regs_of_ne (by omega), set_regs_of_ne (by omega)]

/-! ### Whole calls -/

/-- The code that changes a bit, and the last temporary before its end. -/
def changing (nm : BitName) (n : Nat) : List Instr × Nat :=
  match bitRmwOp nm with
  | none => ([.load (n + 5) (.temp (n + 3))], n + 5)
  | some op =>
    (masking n op ++ updating n (maskTemp n op) op nm.locked,
      if nm.locked then maskTemp n op else maskTemp n op + 1)

@[simp] theorem run_tmp (lg : LlGen) : tmp lg = (lg.temps + 1, { lg with temps := lg.temps + 1 }) :=
  rfl

@[simp] theorem run_emit (instr : Instr) (lg : LlGen) :
    emit instr lg = ((), { lg with out := lg.out ++ [instr] }) := rfl

@[simp] theorem run_bind {α β : Type} (first : Emit α) (next : α → Emit β) (lg : LlGen) :
    (first >>= next) lg = next (first lg).1 (first lg).2 := rfl

@[simp] theorem run_map {α β : Type} (f : α → β) (first : Emit α) (lg : LlGen) :
    (f <$> first) lg = (f (first lg).1, (first lg).2) := rfl

@[simp] theorem run_pure {α : Type} (a : α) (lg : LlGen) : (pure a : Emit α) lg = (a, lg) := rfl

theorem emitBitIntrin_eq (nm : BitName) (p bit : Operand) (lg : LlGen) :
    emitBitIntrin nm p bit lg =
      (.temp ((changing nm lg.temps).2 + 3),
        ⟨(changing nm lg.temps).2 + 3, lg.out ++ (addressing lg.temps p bit ++
          (changing nm lg.temps).1 ++ extracting lg.temps (changing nm lg.temps).2)⟩) := by
  obtain ⟨n, out⟩ := lg
  cases nm <;>
    simp [emitBitIntrin, bitRmwOp, BitName.locked, changing, addressing, extracting, masking,
      maskTemp, updating]

def changed (nm : BitName) (memory : Memory) (b : BitVec 64) (k : Nat) : Memory :=
  match bitRmwOp nm with
  | none => memory
  | some op => Function.update memory b (op.apply (memory b) (maskOf op k))

theorem changing_runs (nm : BitName) (n : Nat) (s : State) {b : BitVec 64}
    (isByte : s.regs (n + 3) = b) (isShift : s.regs (n + 4) = bit &&& 7) :
    n + 5 ≤ (changing nm n).2 ∧
      (∀ t ≤ n, (run (changing nm n).1 s).regs t = s.regs t) ∧
      (run (changing nm n).1 s).regs (n + 4) = bit &&& 7 ∧
      (run (changing nm n).1 s).regs (n + 5) = (s.memory b).setWidth 64 ∧
      (run (changing nm n).1 s).memory = changed nm s.memory b (indexOf bit) := by
  unfold changing changed
  cases bitRmwOp nm with
  | none =>
    refine ⟨Nat.le_refl _, ?_, ?_, ?_, rfl⟩
    · intro t le
      exact set_regs_of_ne (by omega) _ s
    · exact (set_regs_of_ne (by omega) _ s).trans isShift
    · refine (set_regs_self _ _ s).trans ?_
      rw [eval_temp, isByte]
  | some op =>
    have later : n + 7 ≤ maskTemp n op := by
      unfold maskTemp
      split <;> omega
    obtain ⟨kept, sameMemory, isMask⟩ := masking_runs n op s isShift
    have isByte' : (run (masking n op) s).regs (n + 3) = b := (kept (n + 3) (by omega)).trans isByte
    obtain ⟨kept', shift, old, memory⟩ :=
      updating_runs (by omega) op nm.locked (run (masking n op) s) isByte' isMask
    dsimp only
    rw [run_append]
    refine ⟨by split <;> omega, ?_, ?_, ?_, ?_⟩
    · intro t le
      exact (kept' t le).trans (kept t (by omega))
    · exact shift.trans ((kept (n + 4) (by omega)).trans isShift)
    · rw [old, sameMemory]
    · rw [memory, sameMemory]

/-- The functions of the runtime take the old bit and change the memory in the same way. -/
theorem function_eq (nm : BitName) (memory : Memory) (p bit : BitVec 64) :
    function nm memory p bit =
      (truth ((memory (byteOf p bit)).getLsbD (indexOf bit)),
        changed nm memory (byteOf p bit) (indexOf bit)) := by
  have old := congrArg truth (masked_bit (memory (byteOf p bit)) (indexOf_lt bit))
  cases nm with
  | Bt =>
    refine Prod.ext ?_ rfl
    exact (Bt_changes memory p bit).old
  | Bts => simp only [function, Bts, changeBit, hcBitp_eq, old]; rfl
  | Btr => simp only [function, Btr, changeBit, hcBitp_eq, old]; rfl
  | Btc => simp only [function, Btc, changeBit, hcBitp_eq, old]; rfl
  | LBts => simp only [function, LBts, fetchBit, hcBitp_eq, old]; rfl
  | LBtr => simp only [function, LBtr, fetchBit, hcBitp_eq, old]; rfl
  | LBtc => simp only [function, LBtc, fetchBit, hcBitp_eq, old]; rfl

/-- The code in the place of a call does what the function does. -/
theorem emitBitIntrin_runs (nm : BitName) {p bit : Operand} (lg : LlGen) (isP : p.Before lg.temps)
    (isBit : bit.Before lg.temps) :
    ∃ code, (emitBitIntrin nm p bit lg).2.out = lg.out ++ code ∧ ∀ s : State,
      (run code s).eval (emitBitIntrin nm p bit lg).1 =
          (function nm s.memory (s.eval p) (s.eval bit)).1 ∧
        (run code s).memory = (function nm s.memory (s.eval p) (s.eval bit)).2 ∧
        ∀ t ≤ lg.temps, (run code s).regs t = s.regs t := by
  rw [emitBitIntrin_eq]
  refine ⟨_, rfl, ?_⟩
  intro s
  obtain ⟨kept, sameMemory, isByte, isShift⟩ := addressing_runs isP isBit s
  obtain ⟨later, kept', isShift', isOld, memory⟩ :=
    changing_runs nm lg.temps (run (addressing lg.temps p bit) s) isByte isShift
  obtain ⟨kept₃, sameMemory', result⟩ := extracting_runs later
    (run (changing nm lg.temps).1 (run (addressing lg.temps p bit) s)) isOld isShift'
  rw [run_append, run_append, function_eq]
  refine ⟨?_, ?_, ?_⟩
  · rw [← sameMemory]
    exact result
  · rw [sameMemory', memory, sameMemory]
  · intro t le
    exact (kept₃ t le).trans ((kept' t le).trans (kept t le))

def scan : Scan → BitVec 64 → BitVec 64
  | .Bsf => Bsf
  | .Bsr => Bsr
  | .BCnt => BCnt

def scanning (nm : Scan) (n : Nat) (v : Operand) : List Instr × Nat :=
  match nm with
  | .BCnt => ([.ctpop (n + 1) v], n + 1)
  | .Bsf =>
    ([.cttz (n + 1) v, .isZero (n + 2) v,
      .select (n + 3) (.temp (n + 2)) (.word (-1)) (.temp (n + 1))], n + 3)
  | .Bsr =>
    ([.ctlz (n + 1) v, .binary (n + 2) .sub (.word 63) (.temp (n + 1)), .isZero (n + 3) v,
      .select (n + 4) (.temp (n + 3)) (.word (-1)) (.temp (n + 2))], n + 4)

theorem emitScan_eq (nm : Scan) (v : Operand) (lg : LlGen) :
    emitScan nm v lg = (.temp (scanning nm lg.temps v).2,
      ⟨(scanning nm lg.temps v).2, lg.out ++ (scanning nm lg.temps v).1⟩) := by
  obtain ⟨n, out⟩ := lg
  cases nm <;> simp [emitScan, scanning]

theorem select_zero (v a b : BitVec 64) :
    (if (if v = 0 then (1 : BitVec 64) else 0) = 1 then a else b) = if v ≠ 0 then b else a := by
  by_cases zero : v = 0
  · rw [if_pos zero, if_pos rfl, if_neg (not_not.mpr zero)]
  · rw [if_neg zero, if_neg (by decide), if_pos zero]

/-- The code in the place of a scan finds what the function does. -/
theorem emitScan_runs (nm : Scan) {v : Operand} (lg : LlGen) (isV : v.Before lg.temps) :
    ∃ code, (emitScan nm v lg).2.out = lg.out ++ code ∧ ∀ s : State,
      (run code s).eval (emitScan nm v lg).1 = scan nm (s.eval v) ∧
        (run code s).memory = s.memory ∧ ∀ t ≤ lg.temps, (run code s).regs t = s.regs t := by
  rw [emitScan_eq]
  refine ⟨_, rfl, ?_⟩
  intro s
  cases nm with
  | BCnt =>
    refine ⟨set_regs_self _ _ s, rfl, ?_⟩
    intro t le
    exact set_regs_of_ne (by omega) _ s
  | Bsf =>
    simp only [scanning, run, List.foldl_cons, List.foldl_nil, exec, eval_temp, eval_word,
      set_regs_self, set_memory, eval_set isV (Nat.lt_succ_self lg.temps)]
    refine ⟨?_, trivial, ?_⟩
    · rw [set_regs_of_ne (by omega), set_regs_self, select_zero]
      rfl
    · intro t le
      rw [set_regs_of_ne (by omega), set_regs_of_ne (by omega), set_regs_of_ne (by omega)]
  | Bsr =>
    simp only [scanning, run, List.foldl_cons, List.foldl_nil, exec, Opcode.apply, eval_temp,
      eval_word, set_regs_self, set_memory, eval_set isV (Nat.lt_succ_self lg.temps),
      eval_set isV (by omega : lg.temps < lg.temps + 2)]
    refine ⟨?_, trivial, ?_⟩
    · rw [set_regs_of_ne (by omega), set_regs_self, select_zero]
      rfl
    · intro t le
      rw [set_regs_of_ne (by omega), set_regs_of_ne (by omega), set_regs_of_ne (by omega),
        set_regs_of_ne (by omega)]

/-! ## The three targets -/

def newBit : BitName → Bool → Bool
  | .Bt => id
  | .Bts | .LBts => fun _ => true
  | .Btr | .LBtr => fun _ => false
  | .Btc | .LBtc => fun old => !old

def jsFunction : BitName → Buffer → Int → Int → Int × Buffer
  | .Bt => fun buffer p bit => (Js.Bt buffer p bit, buffer)
  | .Btc => Js.Btc
  | .Btr => Js.Btr
  | .Bts => Js.Bts
  | .LBtc => Js.LBtc
  | .LBtr => Js.LBtr
  | .LBts => Js.LBts

def scanLoop : Scan → BitVec 64 → BitVec 64
  | .Bsf => fun v => bsfLoop v 64 0
  | .Bsr => fun v => bsrLoop v 64
  | .BCnt => fun v => bCntLoop 64 v 0

def jsScan : Scan → Int → Int
  | .Bsf => Js.Bsf
  | .Bsr => Js.Bsr
  | .BCnt => Js.BCnt

theorem function_changes (nm : BitName) (memory : Memory) (p bit : BitVec 64) :
    Changes (newBit nm) memory p bit (function nm memory p bit).1 (function nm memory p bit).2 := by
  cases nm with
  | Bt => exact Bt_changes memory p bit
  | Bts => exact changeBit_changes or_bitwise memory p bit
  | Btr => exact changeBit_changes and_bitwise memory p bit
  | Btc => exact changeBit_changes xor_bitwise memory p bit
  | LBts => exact changeBit_changes or_bitwise memory p bit
  | LBtr => exact changeBit_changes and_bitwise memory p bit
  | LBtc => exact changeBit_changes xor_bitwise memory p bit

theorem jsFunction_eq (nm : BitName) {p : BitVec 64} (inBuffer : InBuffer p bit) (memory : Memory) :
    jsFunction nm (view memory) (number p.toInt) (number bit.toInt) =
      ((function nm memory p bit).1.toInt, view (function nm memory p bit).2) := by
  rw [inBuffer.exactBase, inBuffer.exactOffset]
  cases nm with
  | Bt => exact Prod.ext (inBuffer.Bt memory) rfl
  | Bts => exact inBuffer.changeBit or_extends memory
  | Btr => exact inBuffer.changeBit and_extends memory
  | Btc => exact inBuffer.changeBit xor_extends memory
  | LBts => exact inBuffer.changeBit or_extends memory
  | LBtr => exact inBuffer.changeBit and_extends memory
  | LBtc => exact inBuffer.changeBit xor_extends memory

/-- The inline code, the functions of `rt.c` and those of `rt.js` agree where a number holds the
offset, the address or the word exactly, and take and change just the bit that is addressed. -/
theorem bits_agree :
    (∀ (nm : BitName) (memory : Memory) (p bit : BitVec 64),
      Changes (newBit nm) memory p bit (function nm memory p bit).1 (function nm memory p bit).2 ∧
      (∀ (lg : LlGen) (a b : Operand), a.Before lg.temps → b.Before lg.temps →
        ∃ code, (emitBitIntrin nm a b lg).2.out = lg.out ++ code ∧ ∀ s : State,
          s.memory = memory → s.eval a = p → s.eval b = bit →
          (run code s).eval (emitBitIntrin nm a b lg).1 = (function nm memory p bit).1 ∧
            (run code s).memory = (function nm memory p bit).2) ∧
      (InBuffer p bit →
        jsFunction nm (view memory) (number p.toInt) (number bit.toInt) =
          ((function nm memory p bit).1.toInt, view (function nm memory p bit).2))) ∧
    ∀ (nm : Scan) (v : BitVec 64),
      (∀ (lg : LlGen) (a : Operand), a.Before lg.temps →
        ∃ code, (emitScan nm a lg).2.out = lg.out ++ code ∧ ∀ s : State, s.eval a = v →
          (run code s).eval (emitScan nm a lg).1 = scan nm v ∧ (run code s).memory = s.memory) ∧
      scanLoop nm v = scan nm v ∧
      (number v.toInt = v.toInt → jsScan nm (number v.toInt) = (scan nm v).toInt) := by
  constructor
  · intro nm memory p bit
    refine ⟨function_changes nm memory p bit, ?_, fun inBuffer => jsFunction_eq nm inBuffer memory⟩
    intro lg a b isA isB
    obtain ⟨code, isCode, runs⟩ := emitBitIntrin_runs nm lg isA isB
    refine ⟨code, isCode, ?_⟩
    rintro s rfl rfl rfl
    exact ⟨(runs s).1, (runs s).2.1⟩
  · intro nm v
    refine ⟨?_, ?_, ?_⟩
    · intro lg a isA
      obtain ⟨code, isCode, runs⟩ := emitScan_runs nm lg isA
      refine ⟨code, isCode, ?_⟩
      rintro s rfl
      exact ⟨(runs s).1, (runs s).2.1⟩
    · obtain ⟨forward, backward, counted⟩ := loops_eq v
      cases nm with
      | Bsf => exact forward
      | Bsr => exact backward
      | BCnt => exact counted
    · intro isExact
      rw [isExact]
      cases nm with
      | Bsf => exact js_Bsf v
      | Bsr => exact js_Bsr v
      | BCnt => exact js_BCnt v

/-- A word that no number holds: the number nearest to it has fewer bits. -/
theorem rounded_word_disagrees :
    ¬∀ (nm : Scan) (v : BitVec 64), jsScan nm (number v.toInt) = (scan nm v).toInt := by
  intro agrees
  have counted := agrees .BCnt 9007199254740993
  revert counted
  decide +kernel

end Aholyc.Bits
