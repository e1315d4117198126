import Aholyc.Text.StrBuf

/-!
# Runs of string buffer operations (lib/text/strbuf.hc)

A program appends to a buffer, clears it and takes its content in any order, and
changes other memory in between. The buffer follows the bytes that it stands for.
-/

namespace Aholyc.StrBuf

open Aholyc.Lib
open Aholyc.Lib.Memory (Outcome)

structure System where
  memory : Memory
  buffer : CStrBuf

inductive Request where
  | reserve (additional : Int)
  | putStrs (text : CStrs)
  | putN (text : Nat) (length : Int)
  | putS (text : Nat)
  | putC (character : UInt64)
  | printf (libc : Log.Libc) (format : Nat) (args : List Int) (block : Option Nat)
  | clear
  | fini
  | take
  | takeStrs (result : Result)
  /-- The program does something with other memory. -/
  | client (memory : Memory)

inductive Answer where
  | flag (value : Bool)
  | taken (data : Option (Nat × Nat))
  | slice (value : Bool) (text : Option CStrs)
  | thrown
  | done
  deriving DecidableEq, Repr

def Outcome.flag : Outcome Bool → Answer
  | .returned value => .flag value
  | .thrown => .thrown

def Outcome.taken : Outcome (Option (Nat × Nat)) → Answer
  | .returned data => .taken data
  | .thrown => .thrown

def Outcome.slice : Outcome (Bool × Option CStrs) → Answer
  | .returned result => .slice result.1 result.2
  | .thrown => .thrown

namespace System

def call {α : Type} (answer : α → Answer) (result : Option (α × Memory × CStrBuf)) :
    Option (Answer × System) :=
  result.map fun result => (answer result.1, ⟨result.2.1, result.2.2⟩)

def step (allocator : Memory.Allocator) (system : System) : Request → Option (Answer × System)
  | .reserve additional =>
    call Outcome.flag (strBufReserve allocator system.memory system.buffer additional)
  | .putStrs text =>
    call Outcome.flag (strBufPutStrs allocator system.memory system.buffer text)
  | .putN text length =>
    call Outcome.flag (strBufPutN allocator system.memory system.buffer text length)
  | .putS text => call Outcome.flag (strBufPutS allocator system.memory system.buffer text)
  | .putC character =>
    call Outcome.flag (strBufPutC allocator system.memory system.buffer character)
  | .printf libc format args block =>
    call Outcome.flag (strBufPrintf libc allocator system.memory system.buffer format args block)
  | .clear => (strBufClear system.memory system.buffer).map fun next => (.done, ⟨next.1, next.2⟩)
  | .fini => (strBufFini system.memory system.buffer).map fun next => (.done, ⟨next.1, next.2⟩)
  | .take => call Outcome.taken (strBufTake allocator system.memory system.buffer)
  | .takeStrs result =>
    call Outcome.slice (strBufTakeStrs allocator system.memory system.buffer result)
  | .client memory => some (.done, { system with memory })

/-- A `%s` reads the memory as it is. -/
def ReadsMemory (libc : Log.Libc) (memory : Memory) : Prop :=
  ∀ (place : Nat) string, 0 ∉ string → memory.Holds place (string ++ [0]) →
    libc.memory place = string

/-- What a program may ask for: the allocator is right, the text can be read, and
the storage of the buffer is left to it. -/
def Admits (allocator : Memory.Allocator) (system : System) : Request → Prop
  | .putStrs text => allocator.Lawful system.memory ∧ (strsValid text.a text.b = true →
      system.memory.Readable text.a (strsLen text.a text.b))
  | .putN text length => allocator.Lawful system.memory ∧
      (0 ≤ length ∧ (text = 0 → length = 0) → system.memory.Readable text length.toNat)
  | .putS text => allocator.Lawful system.memory ∧ (text ≠ 0 →
      ∃ string, 0 ∉ string ∧ string.length < i64Max ∧ system.memory.Holds text (string ++ [0]))
  | .printf libc format args block => ReadsMemory libc system.memory ∧ (format ≠ 0 →
      ∃ string, 0 ∉ string ∧ string.length < i64Max ∧
        system.memory.Holds format (string ++ [0]) ∧ ∀ text, block = some text →
          (printed libc string args).length < i64Max ∧
          system.memory.Unused text ((printed libc string args).length + 1) ∧
          allocator.Lawful (system.memory.allocate text (printed libc string args ++ [0])))
  | .client memory => memory.Valid ∧ OwnData memory system.buffer.inlineData ∧
      (∀ n, system.memory.blocks system.buffer.a = some n →
        memory.blocks system.buffer.a = some n) ∧
      system.memory.Agree memory system.buffer.a system.buffer.capacity
  | _ => allocator.Lawful system.memory

def Puts (allocator : Memory.Allocator) (system : System) : Request → Prop
  | .putStrs text => Puttable allocator system.buffer text.a (strsLen text.a text.b)
  | .putN text length => Puttable allocator system.buffer text length.toNat
  | .putS text => ∀ n, strLen system.memory text i64Max = some n →
      Puttable allocator system.buffer text n
  | .takeStrs result => result ≠ .buffer
  | _ => True

end System

/-! ## Bytes -/

def Unchanged (system after : System) (content content' : List UInt8) : Prop :=
  after = system ∧ content' = content

/-- Bytes are appended, or the buffer has to grow and cannot: then it is left as
it is. -/
def Appended (allocator : Memory.Allocator) (system : System) (content bytes : List UInt8)
    (answer : Answer) (after : System) (content' : List UInt8) : Prop :=
  answer = .flag true ∧ content' = content ++ bytes ∨
    answer ∈ [.flag false, .thrown] ∧
      system.buffer.capacity ≤ content.length + bytes.length ∧
      ¬ Grows allocator system.buffer (content.length + bytes.length + 1) ∧
      after.buffer = system.buffer ∧ content' = content

def Takes (allocator : Memory.Allocator) (system : System) (content : List UInt8)
    (answer : Answer) (given : Nat → Answer) (after : System) (content' : List UInt8) : Prop :=
  (∃ data, answer = given data ∧ data ≠ 0 ∧ data ≠ after.buffer.a ∧
      Given after.memory data content ∧ content' = []) ∨
    answer = .thrown ∧ allocator (content.length + 1) = none ∧
      Unchanged system after content content'

/-- What a request does to the content, with the value that its text has before
the call. -/
def Follows (allocator : Memory.Allocator) (system : System) (content : List UInt8)
    (request : Request) (answer : Answer) (after : System) (content' : List UInt8) : Prop :=
  match request with
  | .reserve additional => content' = content ∧
      (answer = .flag true ∧ content.length + additional < after.buffer.capacity ∨
        answer ∈ [.flag false, .thrown] ∧ after = system ∧ (additional < 0 ∨
          system.buffer.capacity ≤ content.length + additional ∧
            ¬ Grows allocator system.buffer (content.length + additional.toNat + 1)))
  | .putStrs text =>
      strsValid text.a text.b = false ∧ answer = .flag false ∧
          Unchanged system after content content' ∨
        ∃ bytes, system.memory.read text.a (strsLen text.a text.b) = some bytes ∧
          Appended allocator system content bytes answer after content'
  | .putN text length =>
      ¬ (0 ≤ length ∧ (text = 0 → length = 0)) ∧ answer = .flag false ∧
          Unchanged system after content content' ∨
        ∃ bytes, system.memory.read text length.toNat = some bytes ∧
          Appended allocator system content bytes answer after content'
  | .putS text =>
      text = 0 ∧ answer = .flag false ∧ Unchanged system after content content' ∨
        ∃ bytes, 0 ∉ bytes ∧ system.memory.Holds text (bytes ++ [0]) ∧
          Appended allocator system content bytes answer after content'
  | .putC character =>
      Appended allocator system content [character.toUInt8] answer after content'
  | .printf libc format args block =>
      (format = 0 ∧ answer = .flag false ∨ block = none ∧ answer = .thrown) ∧
          Unchanged system after content content' ∨
        ∃ string, 0 ∉ string ∧ system.memory.Holds format (string ++ [0]) ∧
          Appended allocator system content (printed libc string args) answer after content'
  | .clear => content' = []
  | .fini => content' = []
  | .take => Takes allocator system content answer
      (fun data => .taken (some (data, content.length))) after content'
  | .takeStrs result =>
      result = .null ∧ answer = .slice false none ∧ Unchanged system after content content' ∨
        Takes allocator system content answer
          (fun data => .slice true (some ⟨data, data + content.length⟩)) after content'
  | .client _ => content' = content

structure Invariant (system : System) (content : List UInt8) : Prop where
  valid : system.memory.Valid
  isBuf : IsBuf system.memory system.buffer content

/-- Requests of which each is answered: the content follows them, and no step
uses memory that is not there. -/
def Behaves (system : System) (content : List UInt8) :
    List (Memory.Allocator × Request) → Prop
  | [] => True
  | (allocator, request) :: rest =>
    system.Admits allocator request → system.Puts allocator request →
      ∃ answer after content', system.step allocator request = some (answer, after) ∧
        Follows allocator system content request answer after content' ∧
        Invariant after content' ∧ Behaves after content' rest

/-! ## Steps -/

/-- The step for a request is answered, and it follows the content. -/
def Continues (allocator : Memory.Allocator) (system : System) (content : List UInt8)
    (request : Request) : Prop :=
  ∃ answer after content', system.step allocator request = some (answer, after) ∧
    Follows allocator system content request answer after content' ∧ Invariant after content'

variable {allocator : Memory.Allocator} {system : System} {content bytes : List UInt8}

theorem Appends.appended (isBuf : IsBuf system.memory system.buffer content)
    {call : Option (Outcome Bool × Memory × CStrBuf)}
    (appends : Appends allocator system.memory system.buffer content bytes call) :
    ∃ answer after content', System.call Outcome.flag call = some (answer, after) ∧
      Appended allocator system content bytes answer after content' ∧
      Invariant after content' := by
  obtain ⟨outcome, memory, buffer, called, valid, _, both⟩ := appends
  rw [called]
  cases both with
  | inl appended =>
    obtain ⟨isTrue, isBuf'⟩ := appended
    rw [isTrue]
    exact ⟨_, _, _, rfl, Or.inl ⟨rfl, rfl⟩, valid, isBuf'⟩
  | inr failed =>
    obtain ⟨notTrue, full, refused, sameMemory, sameBuffer⟩ := failed
    rw [sameMemory] at valid ⊢
    rw [sameBuffer]
    refine ⟨_, _, _, rfl, Or.inr ⟨?_, full, refused, rfl, rfl⟩, valid, isBuf⟩
    cases outcome with
    | thrown => simp [Outcome.flag]
    | returned flag => cases flag <;> simp_all [Outcome.flag]

section

variable (invariant : Invariant system content)

include invariant

theorem reserve_continues (lawful : allocator.Lawful system.memory) (additional : Int) :
    Continues allocator system content (.reserve additional) := by
  by_cases negative : additional < 0
  · have refused : strBufReserve allocator system.memory system.buffer additional =
        some (.returned false, system.memory, system.buffer) := if_pos (Or.inr negative)
    unfold Continues System.step
    dsimp only
    rw [refused]
    exact ⟨_, _, content, rfl, ⟨rfl, Or.inr ⟨by simp [Outcome.flag], rfl, Or.inl negative⟩⟩,
      invariant⟩
  · obtain ⟨amount, isAmount⟩ := Int.eq_ofNat_of_zero_le (show 0 ≤ additional by omega)
    obtain ⟨outcome, memory, buffer, reserved, both⟩ :=
      strBufReserve_spec lawful invariant.valid invariant.isBuf amount
    unfold Continues System.step
    dsimp only
    rw [isAmount, reserved]
    cases both with
    | inl grew =>
      obtain ⟨isTrue, room, isBuf, valid, _⟩ := grew
      rw [isTrue]
      refine ⟨_, _, content, rfl, ⟨rfl, Or.inl ⟨rfl, ?_⟩⟩, valid, isBuf⟩
      dsimp only
      omega
    | inr failed =>
      obtain ⟨notTrue, full, refused, sameMemory, sameBuffer⟩ := failed
      rw [sameMemory, sameBuffer]
      refine ⟨_, _, content, rfl, ⟨rfl, Or.inr ⟨?_, rfl, Or.inr ⟨by omega, ?_⟩⟩⟩, invariant⟩
      · cases outcome with
        | thrown => simp [Outcome.flag]
        | returned flag => cases flag <;> simp_all [Outcome.flag]
      · rw [Int.toNat_natCast]
        exact refused

theorem putStrs_continues (lawful : allocator.Lawful system.memory) {text : CStrs}
    (readable : strsValid text.a text.b = true →
      system.memory.Readable text.a (strsLen text.a text.b))
    (puttable : Puttable allocator system.buffer text.a (strsLen text.a text.b)) :
    Continues allocator system content (.putStrs text) := by
  by_cases isText : strsValid text.a text.b = true
  · obtain ⟨bytes, isBytes, isLength, _⟩ := (readable isText).read
    rw [← isLength] at puttable
    obtain ⟨answer, after, content', called, appended, isNext⟩ := Appends.appended invariant.isBuf
      (strBufPutStrs_appends lawful invariant.valid invariant.isBuf isText isBytes puttable)
    exact ⟨answer, after, content', called, Or.inr ⟨bytes, isBytes, appended⟩, isNext⟩
  · have refused : strBufPutStrs allocator system.memory system.buffer text =
        some (.returned false, system.memory, system.buffer) :=
      if_pos (Or.inr (Or.inl isText))
    unfold Continues System.step
    dsimp only
    rw [refused]
    exact ⟨_, _, content, rfl, Or.inl ⟨Bool.eq_false_iff.mpr isText, rfl, rfl, rfl⟩, invariant⟩

theorem putN_continues (lawful : allocator.Lawful system.memory) {text : Nat} {length : Int}
    (readable : 0 ≤ length ∧ (text = 0 → length = 0) →
      system.memory.Readable text length.toNat)
    (puttable : Puttable allocator system.buffer text length.toNat) :
    Continues allocator system content (.putN text length) := by
  by_cases isText : 0 ≤ length ∧ (text = 0 → length = 0)
  · obtain ⟨bytes, isBytes, isLength, _⟩ := (readable isText).read
    rw [← isLength] at puttable
    obtain ⟨answer, after, content', called, appended, isNext⟩ := Appends.appended invariant.isBuf
      (strBufPutN_appends lawful invariant.valid invariant.isBuf isText isBytes puttable)
    exact ⟨answer, after, content', called, Or.inr ⟨bytes, isBytes, appended⟩, isNext⟩
  · have notSlice : strsInitN text length = (false, ⟨0, 0⟩) := by
      apply if_pos
      omega
    have refused : strBufPutN allocator system.memory system.buffer text length =
        some (.returned false, system.memory, system.buffer) := by
      unfold strBufPutN
      rw [notSlice]
      rfl
    unfold Continues System.step
    dsimp only
    rw [refused]
    exact ⟨_, _, content, rfl, Or.inl ⟨isText, rfl, rfl, rfl⟩, invariant⟩

theorem putS_continues (lawful : allocator.Lawful system.memory) {text : Nat}
    (isString : text ≠ 0 → ∃ string, 0 ∉ string ∧ string.length < i64Max ∧
      system.memory.Holds text (string ++ [0]))
    (puttable : ∀ n, strLen system.memory text i64Max = some n →
      Puttable allocator system.buffer text n) :
    Continues allocator system content (.putS text) := by
  by_cases null : text = 0
  · have refused : strBufPutS allocator system.memory system.buffer text =
        some (.returned false, system.memory, system.buffer) := if_pos null
    unfold Continues System.step
    dsimp only
    rw [refused]
    exact ⟨_, _, content, rfl, Or.inl ⟨null, rfl, rfl, rfl⟩, invariant⟩
  · obtain ⟨string, notNul, less, holds⟩ := isString null
    obtain ⟨answer, after, content', called, appended, isNext⟩ := Appends.appended invariant.isBuf
      (strBufPutS_appends lawful invariant.valid invariant.isBuf null notNul holds less
        (puttable _ (strLen_some notNul holds less)))
    exact ⟨answer, after, content', called, Or.inr ⟨string, notNul, holds, appended⟩, isNext⟩

theorem printf_continues {libc : Log.Libc} {format : Nat} {args : List Int} {block : Option Nat}
    (admitted : system.Admits allocator (.printf libc format args block)) :
    Continues allocator system content (.printf libc format args block) := by
  unfold Continues System.step
  dsimp only
  by_cases null : format = 0
  · have refused : strBufPrintf libc allocator system.memory system.buffer format args block =
        some (.returned false, system.memory, system.buffer) := if_pos null
    rw [refused]
    exact ⟨_, _, content, rfl, Or.inl ⟨Or.inl ⟨null, rfl⟩, rfl, rfl⟩, invariant⟩
  · obtain ⟨string, notNul, less, holds, fits⟩ := admitted.2 null
    cases block with
    | none =>
      have isRead : system.memory.read format string.length = some string := by
        rw [Memory.holds_append] at holds
        exact holds.1.read
      have thrown : strBufPrintf libc allocator system.memory system.buffer format args none =
          some (.thrown, system.memory, system.buffer) := by
        unfold strBufPrintf
        rw [if_neg null, strLen_some notNul holds less, Option.bind_some, isRead]
        rfl
      rw [thrown]
      exact ⟨_, _, content, rfl, Or.inl ⟨Or.inr ⟨rfl, rfl⟩, rfl, rfl⟩, invariant⟩
    | some text =>
      obtain ⟨short, unused, lawful⟩ := fits text rfl
      obtain ⟨outcome, memory, buffer, printed, valid, both⟩ :=
        strBufPrintf_appends invariant.valid invariant.isBuf null ⟨notNul, less, holds⟩ rfl short
          unused lawful
      rw [printed]
      cases both with
      | inl appended =>
        obtain ⟨isTrue, isBuf⟩ := appended
        rw [isTrue]
        exact ⟨_, _, _, rfl, Or.inr ⟨string, notNul, holds, Or.inl ⟨rfl, rfl⟩⟩, valid, isBuf⟩
      | inr failed =>
        obtain ⟨notTrue, full, refused, isBuf, sameBuffer⟩ := failed
        rw [sameBuffer]
        refine ⟨_, _, content, rfl, Or.inr ⟨string, notNul, holds,
          Or.inr ⟨?_, full, refused, rfl, rfl⟩⟩, valid, isBuf⟩
        cases outcome with
        | thrown => simp [Outcome.flag]
        | returned flag => cases flag <;> simp_all [Outcome.flag]

theorem take_continues (lawful : allocator.Lawful system.memory) :
    Continues allocator system content .take := by
  obtain ⟨outcome, memory, buffer, taken, valid, both⟩ :=
    strBufTake_spec lawful invariant.valid invariant.isBuf
  unfold Continues System.step
  dsimp only
  rw [taken]
  cases both with
  | inl given =>
    obtain ⟨data, isData, notNull, isGiven, differs, isBuf⟩ := given
    rw [isData]
    exact ⟨_, _, _, rfl, Or.inl ⟨data, rfl, notNull, differs, isGiven, rfl⟩, valid, isBuf⟩
  | inr failed =>
    obtain ⟨isThrown, refused, sameMemory, sameBuffer⟩ := failed
    rw [isThrown, sameMemory, sameBuffer]
    exact ⟨_, _, _, rfl, Or.inr ⟨rfl, refused, rfl, rfl⟩, invariant⟩

theorem takeStrs_continues (lawful : allocator.Lawful system.memory) {result : Result}
    (elsewhere : result ≠ .buffer) : Continues allocator system content (.takeStrs result) := by
  unfold Continues System.step strBufTakeStrs
  dsimp only
  by_cases null : result = .null
  · rw [if_pos null]
    exact ⟨_, _, content, rfl, Or.inl ⟨null, rfl, rfl, rfl⟩, invariant⟩
  obtain ⟨outcome, memory, buffer, taken, valid, both⟩ :=
    strBufTake_spec lawful invariant.valid invariant.isBuf
  rw [if_neg null, taken, Option.map_some]
  cases both with
  | inl given =>
    obtain ⟨data, isData, notNull, isGiven, differs, isBuf⟩ := given
    have isSlice : strsInitN data content.length = (true, ⟨data, data + content.length⟩) := by
      apply if_neg
      omega
    rw [isData]
    dsimp only
    rw [isSlice, Result.store, if_neg elsewhere]
    exact ⟨_, _, _, rfl, Or.inr (Or.inl ⟨data, rfl, notNull, differs, isGiven, rfl⟩), valid, isBuf⟩
  | inr failed =>
    obtain ⟨isThrown, refused, sameMemory, sameBuffer⟩ := failed
    rw [isThrown, sameMemory, sameBuffer]
    exact ⟨_, _, _, rfl, Or.inr (Or.inr ⟨rfl, refused, rfl, rfl⟩), invariant⟩

theorem step_continues {request : Request} (admitted : system.Admits allocator request)
    (puts : system.Puts allocator request) : Continues allocator system content request := by
  cases request with
  | reserve additional => exact reserve_continues invariant admitted additional
  | putStrs text => exact putStrs_continues invariant admitted.1 admitted.2 puts
  | putN text length => exact putN_continues invariant admitted.1 admitted.2 puts
  | putS text => exact putS_continues invariant admitted.1 admitted.2 puts
  | putC character =>
    exact Appends.appended invariant.isBuf
      (strBufPutC_appends admitted invariant.valid invariant.isBuf character)
  | printf libc format args block => exact printf_continues invariant admitted
  | clear =>
    obtain ⟨memory, buffer, cleared, valid, isBuf⟩ :=
      strBufClear_spec invariant.valid invariant.isBuf
    unfold Continues System.step
    dsimp only
    rw [cleared]
    exact ⟨_, _, _, rfl, rfl, valid, isBuf⟩
  | fini =>
    obtain ⟨memory, buffer, ended, valid, isBuf⟩ :=
      strBufFini_spec invariant.valid invariant.isBuf
    unfold Continues System.step
    dsimp only
    rw [ended]
    exact ⟨_, _, _, rfl, rfl, valid, isBuf⟩
  | take => exact take_continues invariant admitted
  | takeStrs result => exact takeStrs_continues invariant admitted puts
  | client memory =>
    obtain ⟨valid, ownData, blocks, agree⟩ := admitted
    have isBuf := invariant.isBuf
    have room := isBuf.room
    refine ⟨_, _, content, rfl, rfl, valid, ownData, isBuf.storage.imp_right (blocks _),
      isBuf.fits, isBuf.isEnd, room, isBuf.holds.agree (agree.part (Nat.le_refl _) ?_)⟩
    rw [List.length_append, List.length_singleton]
    omega

end

theorem run_behaves (requests : List (Memory.Allocator × Request))
    (invariant : Invariant system content) : Behaves system content requests := by
  induction requests generalizing system content with
  | nil => trivial
  | cons first rest ih =>
    intro admitted puts
    obtain ⟨answer, after, content', stepped, follows, isNext⟩ :=
      step_continues invariant admitted puts
    exact ⟨answer, after, content', stepped, follows, isNext, ih isNext⟩

def sevens : Memory where
  bytes := fun place => if 1000 ≤ place ∧ place < 4000 then some 7 else none
  blocks := fun _ => none

theorem sevens_valid : sevens.Valid where
  positive := fun isBlock => by cases isBlock
  readable := fun isBlock => by cases isBlock
  apart := fun isBlock => by cases isBlock

theorem sevens_ownData : OwnData sevens 1000 where
  notNull := by decide
  readable := by
    intro i less
    unfold strBufInlineCapacity at less
    exact ⟨7, if_pos ⟨by omega, by omega⟩⟩
  apart := fun _ _ isBlock => by cases isBlock

def System.run (system : System) : List (Memory.Allocator × Request) → Option System
  | [] => some system
  | (allocator, request) :: rest =>
    (system.step allocator request).bind fun result => result.2.run rest

end Aholyc.StrBuf
