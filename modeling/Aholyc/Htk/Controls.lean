import Aholyc.Htk.Bounds

/-!
# Control bytes inside a sequence

`HtkTermByte` handles every byte with one call, except for a control byte inside
the parameters of a CSI sequence: there it calls itself in the state it is in.
`Flat` computations need no stack beyond what they are started with.
-/

namespace Aholyc.Htk

open Aholyc.Lib.Hoare Aholyc.Text

/-! ## Computations that do not call themselves -/

def Flat {α : Type} (run : Term α) : Prop :=
  ∀ t, Ends (fun fault => fault ≠ Fault.stack) (fun _ _ => True) run t

variable {α β : Type}

theorem flat_bind {first : Term α} {next : α → Term β} (isFlat : Flat first)
    (later : ∀ a, Flat (next a)) : Flat (first >>= next) := by
  intro t
  rw [ends_bind]
  apply (isFlat t).mono
  intro a t' _
  exact later a t'

theorem flat_ite {p : Prop} [Decidable p] {first second : Term α} (isFlat : Flat first)
    (isFlat' : Flat second) : Flat (if p then first else second) := by
  intro t
  rw [ends_ite]
  exact ⟨fun _ => isFlat t, fun _ => isFlat' t⟩

theorem flat_pure (a : α) : Flat (pure a) := fun _ => trivial

theorem flat_get : Flat (get : Term CHtkTerm) := fun _ => trivial

theorem flat_set (t : CHtkTerm) : Flat (set t : Term PUnit) := fun _ => trivial

theorem flat_modify (change : CHtkTerm → CHtkTerm) : Flat (modify change : Term PUnit) :=
  fun _ => trivial

theorem flat_outside (index : Int) : Flat (throw (.outside index) : Term α) := by
  intro t
  rw [ends_throw]
  intro same
  cases same

theorem flat_forUp {body : Int → Term PUnit} (isFlat : ∀ i, Flat (body i)) (start : Int)
    (count : Nat) : Flat (forUp body start count) := by
  intro t
  apply ends_forUp trivial
  intro i t' _ _ _
  exact isFlat i t'

theorem flat_forDown {body : Int → Term PUnit} (isFlat : ∀ i, Flat (body i)) (start : Int)
    (count : Nat) : Flat (forDown body start count) := by
  intro t
  apply ends_forDown trivial
  intro i t' _ _ _
  exact isFlat i t'

/-! ## The terminal's functions -/

theorem readCell_flat (index : Int) : Flat (readCell index) := by
  apply flat_bind flat_get
  intro t
  cases t.cells with
  | none => exact flat_outside index
  | some cells => exact flat_ite (flat_pure _) (flat_outside index)

theorem writeCell_flat (index : Int) (cell : UInt64) : Flat (writeCell index cell) := by
  apply flat_bind flat_get
  intro t
  cases t.cells with
  | none => exact flat_outside index
  | some cells => exact flat_ite (flat_set _) (flat_outside index)

variable {fault : Fault} {cols : Int} {t : CHtkTerm}

theorem copyCells_error {dst src : List UInt64} {target source bytes : Int}
    (failed : copyCells dst src target source bytes = .error fault) : fault = .outside target := by
  unfold copyCells at failed
  dsimp only at failed
  split at failed
  · cases failed
  · injection failed with isFault
    exact isFault.symm

theorem moveCells_flat (target source bytes : Int) : Flat (moveCells target source bytes) := by
  apply flat_bind flat_get
  intro t
  cases t.cells with
  | none => exact flat_outside target
  | some cells =>
    dsimp only
    cases copied : copyCells cells cells target source bytes with
    | ok moved => exact flat_set _
    | error fault =>
      rw [copyCells_error copied]
      exact flat_outside target

theorem clearRows_flat (first last : Int) : Flat (htkTermClearRows first last) :=
  flat_bind flat_get fun _ => flat_forUp (fun i => writeCell_flat i _) _ _

theorem clearRange_flat (row first last : Int) : Flat (htkTermClearRange row first last) :=
  flat_bind flat_get fun _ => flat_forUp (fun _ => writeCell_flat _ _) _ _

theorem scroll_flat (lines : Int) : Flat (htkTermScroll lines) := by
  apply flat_bind flat_get
  intro t
  apply flat_ite
  · exact flat_bind (moveCells_flat _ _ _) fun _ => clearRows_flat _ _
  · apply flat_ite
    · exact flat_bind (moveCells_flat _ _ _) fun _ => clearRows_flat _ _
    · exact flat_pure _

theorem newline_flat : Flat htkTermNewline := by
  apply flat_bind flat_get
  intro t
  exact flat_ite (scroll_flat 1) (flat_ite (flat_set _) (flat_pure _))

theorem put_flat (rune : UInt64) : Flat (htkTermPut rune) := by
  have wrap : Flat deferredWrap := by
    apply flat_bind flat_get
    intro t
    exact flat_ite (flat_bind (flat_set _) fun _ => newline_flat) (flat_pure _)
  apply flat_bind wrap
  intro _
  apply flat_bind flat_get
  intro t
  exact flat_bind (writeCell_flat _ _) fun _ => flat_modify _

theorem scrollBelow_flat (lines : Int) : Flat (scrollBelowOver moveCells lines) := by
  apply flat_bind flat_get
  intro t
  apply flat_ite
  · apply flat_bind (flat_set _)
    intro _
    exact flat_bind (scroll_flat lines) fun _ => flat_modify _
  · exact flat_pure _

theorem eraseDisplay_flat (n : Int) : Flat (eraseDisplay n) := by
  apply flat_bind flat_get
  intro t
  apply flat_ite
  · apply flat_bind (clearRange_flat _ _ _)
    intro _
    exact flat_ite (clearRows_flat _ _) (flat_pure _)
  · apply flat_ite
    · apply flat_ite
      · exact flat_bind (clearRows_flat _ _) fun _ => clearRange_flat _ _ _
      · exact clearRange_flat _ _ _
    · exact clearRows_flat _ _

theorem eraseLine_flat (n : Int) : Flat (eraseLine n) := by
  apply flat_bind flat_get
  intro t
  exact flat_ite (clearRange_flat _ _ _) (flat_ite (clearRange_flat _ _ _) (clearRange_flat _ _ _))

theorem moveCell_flat (target source : Int) :
    Flat (do writeCell target (← readCell source)) :=
  flat_bind (readCell_flat source) fun cell => writeCell_flat target cell

theorem deleteChars_flat (n : Int) : Flat (deleteChars n) := by
  apply flat_bind flat_get
  intro t
  apply flat_forUp
  intro i
  exact flat_ite (moveCell_flat _ _) (writeCell_flat _ _)

theorem insertBlanks_flat (n : Int) : Flat (insertBlanks n) := by
  apply flat_bind flat_get
  intro t
  apply flat_forDown
  intro i
  exact flat_ite (moveCell_flat _ _) (writeCell_flat _ _)

theorem csiSwitch_flat (final : Char) (n m : Int) : Flat (csiSwitchOver moveCells final n m) := by
  unfold csiSwitchOver
  split
  all_goals first
    | exact flat_modify _
    | exact flat_pure _
    | exact scrollBelow_flat _
    | exact scroll_flat _
    | exact deleteChars_flat _
    | exact insertBlanks_flat _
    | exact flat_bind flat_get fun _ => eraseDisplay_flat _
    | exact flat_bind flat_get fun _ => eraseLine_flat _
    | exact flat_bind flat_get fun _ => clearRange_flat _ _ _

theorem csi_flat (final : Char) : Flat (htkTermCsi final) := by
  apply flat_bind flat_get
  intro t
  apply flat_ite
  · exact flat_ite (flat_set _) (flat_pure _)
  · exact flat_bind (csiSwitch_flat _ _ _) fun _ => flat_modify _

theorem escByte_flat (byte : UInt8) : Flat (escByte byte) := by
  apply flat_bind flat_get
  intro t
  apply flat_ite (flat_set _)
  apply flat_ite (flat_set _)
  apply flat_ite (flat_set _)
  apply flat_ite (flat_set _)
  apply flat_ite (flat_ite (scroll_flat _) (flat_ite (flat_set _) (flat_pure _)))
  apply flat_ite newline_flat
  apply flat_ite (flat_bind (flat_set _) fun _ => newline_flat)
  apply flat_ite (flat_bind (clearRows_flat _ _) fun _ => flat_modify _)
  exact flat_ite (flat_set _) (flat_pure _)

theorem plainByte_flat (byte : UInt8) : Flat (plainByte byte) := by
  apply flat_bind flat_get
  intro t
  apply flat_ite (flat_set _)
  apply flat_ite (flat_set _)
  apply flat_ite newline_flat
  apply flat_ite (flat_set _)
  apply flat_ite (flat_ite (flat_set _) (flat_pure _))
  apply flat_ite (flat_set _)
  exact flat_ite (put_flat _) (flat_pure _)

theorem utf8Byte_flat (byte : UInt8) : Flat (utf8Byte byte) := by
  apply flat_bind flat_get
  intro t
  apply flat_ite
  · apply flat_bind (flat_set _)
    intro _
    generalize utf8DecodeRune _ = decoded
    cases decoded with
    | none => exact flat_pure _
    | some decoded => exact put_flat _
  · exact flat_set _

theorem textByte_flat (byte : UInt8) : Flat (textByte byte) := by
  apply flat_bind flat_get
  intro t
  apply flat_ite
  · exact flat_ite (utf8Byte_flat byte) (flat_bind (flat_modify _) fun _ => plainByte_flat byte)
  · exact plainByte_flat byte

theorem copyRows_error {old fresh : List UInt64} {oldCols keep y : Int} {count : Nat}
    (failed : copyRows old oldCols cols keep fresh y count = .error fault) : fault ≠ .stack := by
  induction count generalizing fresh y with
  | zero => cases failed
  | succ count ih =>
    unfold copyRows at failed
    split at failed
    · exact ih failed
    next fault' failed' =>
      injection failed with isFault
      rw [← isFault, copyCells_error failed']
      intro same
      cases same

theorem keptCells_error {rows : Int} {fresh : List UInt64}
    (failed : keptCells t cols rows fresh = .error fault) : fault ≠ .stack := by
  unfold keptCells at failed
  split at failed
  · cases failed
  · exact copyRows_error failed

theorem freshCells_error {rows : Int} (failed : freshCells cols rows = .error fault) :
    fault ≠ .stack := by
  unfold freshCells at failed
  dsimp only at failed
  split at failed
  · cases failed
  · injection failed with isFault
    rw [← isFault]
    intro same
    cases same

theorem newScreen_flat (cols rows : Int) : Flat (newScreen cols rows) := by
  have thrown (fault : Fault) (other : fault ≠ .stack) : Flat (throw fault : Term Unit) := by
    intro t
    rw [ends_throw]
    exact other
  apply flat_bind flat_get
  intro t
  cases isFresh : freshCells cols rows with
  | error fault => exact thrown fault (freshCells_error isFresh)
  | ok fresh =>
    dsimp only
    cases isKept : keptCells t cols rows fresh with
    | error fault => exact thrown fault (keptCells_error isKept)
    | ok cells => exact flat_set _

theorem resize_flat (granted : Bool) (cols rows : Int) :
    Flat (htkTermResize granted cols rows) := by
  apply flat_bind flat_get
  intro t
  exact flat_ite (flat_pure _) (flat_ite (newScreen_flat _ _) (flat_pure _))

/-! ## One byte -/

/-- A control byte arrives inside the parameters of a CSI sequence. -/
def ControlInside (t : CHtkTerm) (byte : UInt8) : Prop := t.state = .csi ∧ byte < 0x20

instance (t : CHtkTerm) (byte : UInt8) : Decidable (ControlInside t byte) :=
  inferInstanceAs (Decidable (_ ∧ _))

theorem byte_flat {byte : UInt8} (other : ¬ControlInside t byte) (stack : Nat) :
    Ends (fun fault => fault ≠ Fault.stack) (fun _ _ => True) (htkTermByte byte (stack + 1)) t := by
  unfold htkTermByte
  rw [ends_bind, ends_get]
  cases isState : t.state with
  | text => exact textByte_flat byte t
  | esc =>
    dsimp only
    rw [ends_bind, ends_set]
    exact escByte_flat byte _
  | skip => exact trivial
  | osc => exact trivial
  | csi =>
    have notControl : ¬byte < 0x20 := fun control => other ⟨isState, control⟩
    have isFlat : Flat (do set { t with state := Parser.text }; htkTermCsi (Char.ofUInt8 byte)) :=
      flat_bind (flat_set _) fun _ => csi_flat _
    dsimp only
    rw [if_neg notControl]
    exact flat_ite (flat_set _) (flat_ite (flat_set _) (flat_ite (flat_set _)
      (flat_ite isFlat (flat_pure _)))) t

/-- A control byte inside of a sequence does to the terminal what it does in plain text,
and the parameters stay. -/
structure ActsInside (t : CHtkTerm) (byte : UInt8) : Prop where
  acts : ∃ stack inside outside, htkTermByte byte stack t = .ok ((), inside) ∧
    htkTermByte byte stack { t with state := .text } = .ok ((), outside) ∧
    { inside with state := .text } = { outside with state := Parser.text } ∧
    inside.params = t.params ∧ inside.nparams = t.nparams ∧ inside.isPrivate = t.isPrivate

structure Handled (t : CHtkTerm) (byte : UInt8) : Prop where
  returns : ∃ stack, htkTermByte byte stack t ≠ .error .stack
  control : ControlInside t byte → ActsInside t byte

theorem handled_iff (t : CHtkTerm) (byte : UInt8) : Handled t byte ↔ ¬ControlInside t byte := by
  constructor
  · intro handled control
    obtain ⟨stack, returns⟩ := handled.returns
    exact returns (control_endless control.1 control.2 stack)
  · intro other
    have returns : htkTermByte byte 1 t ≠ .error .stack := by
      intro endless
      exact (byte_flat other 0).error endless rfl
    exact ⟨⟨1, returns⟩, fun control => absurd control other⟩

/-! ## Runs -/

/-- Some byte of the run is a control byte in the sequence it arrives in. -/
def MeetsControl (stack : Nat) : CHtkTerm → List Event → Prop
  | _, [] => False
  | t, event :: events =>
    (∃ byte, event = .byte byte ∧ ControlInside t byte) ∨
      ∃ t', step stack t event = .ok t' ∧ MeetsControl stack t' events

theorem step_stack_iff {event : Event} (stack : Nat) :
    step (stack + 1) t event = .error .stack ↔
      ∃ byte, event = .byte byte ∧ ControlInside t byte := by
  constructor
  · intro endless
    cases event with
    | byte byte =>
      by_cases control : ControlInside t byte
      · exact ⟨byte, rfl, control⟩
      have isFlat := byte_flat control stack
      unfold step at endless
      dsimp only at endless
      split at endless
      · cases endless
      next fault failed =>
        injection endless with isFault
        exact absurd isFault (isFlat.error failed)
    | resize granted cols rows =>
      have isFlat := resize_flat granted cols rows t
      unfold step at endless
      dsimp only at endless
      split at endless
      · cases endless
      next fault failed =>
        injection endless with isFault
        exact absurd isFault (isFlat.error failed)
  · rintro ⟨byte, rfl, control⟩
    unfold step
    dsimp only
    rw [control_endless control.1 control.2]

theorem run_stack_iff {events : List Event} (stack : Nat) :
    run (stack + 1) t events = .error .stack ↔ MeetsControl (stack + 1) t events := by
  induction events generalizing t with
  | nil => exact iff_of_false (fun same => by cases same) id
  | cons event events ih =>
    unfold run MeetsControl
    rw [← step_stack_iff stack]
    cases step (stack + 1) t event with
    | ok t' =>
      dsimp only
      rw [ih]
      constructor
      · intro later
        exact Or.inr ⟨t', rfl, later⟩
      · intro meets
        cases meets with
        | inl now => cases now
        | inr later =>
          obtain ⟨_, same, later⟩ := later
          cases same
          exact later
    | error fault =>
      dsimp only
      constructor
      · intro endless
        exact Or.inl endless
      · intro meets
        cases meets with
        | inl now => exact now
        | inr later =>
          obtain ⟨_, same, _⟩ := later
          cases same

end Aholyc.Htk
