import Aholyc.Text.Utf8

/-!
# Keyboard input (lib/term/posix.hc)

The bytes of a terminal become events: ASCII, UTF-8, CSI and SS3 sequences, and ESC
in front of a key for Alt. The input here is a sequence of bytes that have all
arrived, so that a wait ends without a byte only behind the last of them; no signal
comes in between.
-/

namespace Aholyc.Term

open Aholyc.Text

abbrev I64 := BitVec 64

inductive EventType where
  | none
  | key
  | mouse
  | resize
  deriving DecidableEq, Repr

structure CTermEvent where
  type : EventType
  key : I64
  mods : I64
  x : I64
  y : I64
  button : I64
  pressed : Bool
  motion : Bool
  width : I64
  height : I64
  deriving DecidableEq, Repr

def CTermEvent.empty : CTermEvent := ⟨.none, 0, 0, 0, 0, 0, false, false, 0, 0⟩

def termKeyTab : I64 := 9
def termKeyEnter : I64 := 13
def termKeyEscape : I64 := 27
def termKeyBackspace : I64 := 127
def termKeyUp : I64 := 0x110001
def termKeyDown : I64 := 0x110002
def termKeyRight : I64 := 0x110003
def termKeyLeft : I64 := 0x110004
def termKeyHome : I64 := 0x110005
def termKeyEnd : I64 := 0x110006
def termKeyPgup : I64 := 0x110007
def termKeyPgdn : I64 := 0x110008
def termKeyInsert : I64 := 0x110009
def termKeyDelete : I64 := 0x11000A
def termKeyF1 : I64 := 0x110011
def termKeyF6 : I64 := 0x110016
def termKeyF11 : I64 := 0x11001B

def termModShift : I64 := 1
def termModAlt : I64 := 2
def termModCtrl : I64 := 4

def termMouseWheelUp : I64 := 4

def runeReplacement : I64 := 0xFFFD

def escape : UInt8 := 0x1B

/-- The queue of bytes that have been pushed back, and the bytes still to be read. -/
structure TermInput where
  queue : List UInt8
  input : List UInt8
  deriving DecidableEq, Repr

abbrev Answer := Bool × CTermEvent × TermInput

/-! ## The source -/

def termPosixByte : TermInput → Option (UInt8 × TermInput)
  | ⟨byte :: queue, input⟩ => some (byte, ⟨queue, input⟩)
  | ⟨[], byte :: input⟩ => some (byte, ⟨[], input⟩)
  | ⟨[], []⟩ => none

def termPosixUnByte (byte : UInt8) (s : TermInput) : TermInput :=
  if s.queue.length < 8 then { s with queue := s.queue ++ [byte] } else s

def termPosixTildeKey (code : I64) : I64 :=
  if code = 1 ∨ code = 7 then termKeyHome
  else if code = 2 then termKeyInsert
  else if code = 3 then termKeyDelete
  else if code = 4 ∨ code = 8 then termKeyEnd
  else if code = 5 then termKeyPgup
  else if code = 6 then termKeyPgdn
  else if BitVec.sle 11 code ∧ BitVec.sle code 15 then termKeyF1 + code - 11
  else if BitVec.sle 17 code ∧ BitVec.sle code 21 then termKeyF6 + code - 17
  else if code = 23 ∨ code = 24 then termKeyF11 + code - 23
  else 0

def termPosixFinalKey (final : UInt8) : I64 :=
  if final = 'A'.toUInt8 then termKeyUp
  else if final = 'B'.toUInt8 then termKeyDown
  else if final = 'C'.toUInt8 then termKeyRight
  else if final = 'D'.toUInt8 then termKeyLeft
  else if final = 'H'.toUInt8 then termKeyHome
  else if final = 'F'.toUInt8 then termKeyEnd
  else 0

/-- The modifiers of a mouse report, on top of those of the event. -/
def mouseMods (button mods : I64) : I64 :=
  let mods := if button &&& 4 ≠ 0 then mods ||| termModShift else mods
  let mods := if button &&& 8 ≠ 0 then mods ||| termModAlt else mods
  if button &&& 16 ≠ 0 then mods ||| termModCtrl else mods

def termPosixMouse (event : CTermEvent) (params : List I64) (final : UInt8) : CTermEvent :=
  let button := params.getD 0 0
  let base := button &&& 3
  let event := { event with
    type := .mouse
    x := params.getD 1 0 - 1
    y := params.getD 2 0 - 1
    mods := mouseMods button event.mods }
  if button &&& 64 ≠ 0 then
    { event with button := termMouseWheelUp + (button &&& 1), pressed := true }
  else
    { event with
      button := if BitVec.slt base 3 then base + 1 else event.button
      pressed := final = 'M'.toUInt8 ∧ BitVec.slt base 3
      motion := button &&& 32 ≠ 0 }

structure CsiScan where
  params : List I64
  count : Nat
  value : I64
  mouse : Bool
  deriving DecidableEq, Repr

/-- `if (count < 4) params[count] = value; count++;` -/
def CsiScan.store (scan : CsiScan) : CsiScan :=
  { scan with
    params := if scan.count < 4 then scan.params.set scan.count scan.value else scan.params
    count := scan.count + 1 }

def TermInput.length (s : TermInput) : Nat := s.queue.length + s.input.length

theorem termPosixByte_length {s s' : TermInput} {byte : UInt8}
    (isByte : termPosixByte s = some (byte, s')) : s'.length < s.length := by
  unfold termPosixByte at isByte
  unfold TermInput.length
  split at isByte
  · cases isByte
    simp only [List.length_cons]
    omega
  · cases isByte
    simp only [List.length_cons]
    omega
  · cases isByte

/-- The loop: the final byte, or nothing if the input ends in front of it. -/
def csiLoop (scan : CsiScan) (s : TermInput) : Option UInt8 × CsiScan × TermInput :=
  match _isByte : termPosixByte s with
  | none => (none, scan, s)
  | some (byte, s') =>
    if byte ≥ '0'.toUInt8 ∧ byte ≤ '9'.toUInt8 then
      csiLoop { scan with value := scan.value * 10 + byte.toBitVec.setWidth 64 - 48 } s'
    else if byte = ';'.toUInt8 then csiLoop { scan.store with value := 0 } s'
    else if byte = '<'.toUInt8 then csiLoop { scan with mouse := true } s'
    else if byte ≥ 0x40 then (some byte, scan.store, s')
    else csiLoop scan s'
termination_by s.length
decreasing_by all_goals exact termPosixByte_length _isByte

/-- `if (count >= 2 && params[1] > 0) event->mods = params[1] - 1;` -/
def csiSetMods (event : CTermEvent) (scan : CsiScan) : CTermEvent :=
  if scan.count ≥ 2 ∧ BitVec.slt 0 (scan.params.getD 1 0) then
    { event with mods := scan.params.getD 1 0 - 1 }
  else event

/-- `if (!key) return FALSE;` and what follows it. -/
def keyAnswer (event : CTermEvent) (key : I64) (s : TermInput) : Answer :=
  if key = 0 then (false, event, s) else (true, { event with type := .key, key := key }, s)

def csiAnswer (event : CTermEvent) (scan : CsiScan) (final : UInt8) (s : TermInput) : Answer :=
  if scan.mouse ∧ (final = 'M'.toUInt8 ∨ final = 'm'.toUInt8) then
    (true, termPosixMouse event scan.params final, s)
  else if final = '~'.toUInt8 then
    keyAnswer (csiSetMods event scan) (termPosixTildeKey (scan.params.getD 0 0)) s
  else if final = 'Z'.toUInt8 then keyAnswer { event with mods := termModShift } termKeyTab s
  else keyAnswer (csiSetMods event scan) (termPosixFinalKey final) s

def termPosixCsi (event : CTermEvent) (s : TermInput) : Answer :=
  match csiLoop ⟨[0, 0, 0, 0], 0, 0, false⟩ s with
  | (none, _, s) => (false, event, s)
  | (some final, scan, s) => csiAnswer event scan final s

def ss3Key (byte : UInt8) : I64 :=
  if byte ≥ 'P'.toUInt8 ∧ byte ≤ 'S'.toUInt8 then
    termKeyF1 + byte.toBitVec.setWidth 64 - 0x50
  else termPosixFinalKey byte

def termPosixEscape (event : CTermEvent) (s : TermInput) : Answer :=
  match termPosixByte s with
  | none => (true, { event with type := .key, key := termKeyEscape }, s)
  | some (byte, s) =>
    if byte = '['.toUInt8 then termPosixCsi event s
    else if byte = 'O'.toUInt8 then
      match termPosixByte s with
      | none => (false, event, s)
      | some (byte, s) => keyAnswer event (ss3Key byte) s
    else (false, { event with mods := termModAlt }, termPosixUnByte byte s)

def readBytes : Nat → TermInput → Option (List UInt8) × TermInput
  | 0, s => (some [], s)
  | n + 1, s =>
    match termPosixByte s with
    | none => (none, s)
    | some (byte, s) => ((readBytes n s).1.map (byte :: ·), (readBytes n s).2)

def need (byte : UInt8) : Nat := if byte ≥ 0xF0 then 3 else if byte ≥ 0xE0 then 2 else 1

def runeAnswer (event : CTermEvent) (byte : UInt8) (s : TermInput) : Answer :=
  match readBytes (need byte) s with
  | (none, s) => (false, event, s)
  | (some rest, s) =>
    (true, { event with key := match utf8DecodeRune (byte :: rest) with
      | none => runeReplacement
      | some (_, rune) => BitVec.ofNat 64 rune }, s)

def termPosixKey (event : CTermEvent) (byte : UInt8) (s : TermInput) : Answer :=
  if byte = escape then termPosixEscape event s
  else
    let event := { event with type := .key }
    if byte = '\r'.toUInt8 ∨ byte = '\n'.toUInt8 then
      (true, { event with key := termKeyEnter }, s)
    else if byte = 8 ∨ byte = 127 then (true, { event with key := termKeyBackspace }, s)
    else if byte = '\t'.toUInt8 then (true, { event with key := termKeyTab }, s)
    else if byte > 0 ∧ byte < 27 then
      (true, { event with
        key := 0x61 + byte.toBitVec.setWidth 64 - 1
        mods := event.mods ||| termModCtrl }, s)
    else if byte < 0x80 then (true, { event with key := byte.toBitVec.setWidth 64 }, s)
    else runeAnswer event byte s

def termNativePoll (event : CTermEvent) (s : TermInput) : Answer :=
  match termPosixByte s with
  | none => (false, event, s)
  | some (byte, s) =>
    let first := termPosixKey event byte s
    if first.1 then first
    else if first.2.1.mods &&& termModAlt ≠ 0 then
      match termPosixByte first.2.2 with
      | none => (false, first.2)
      | some (byte, s) => termPosixKey first.2.1 byte s
    else (false, first.2)

def termPollEvent (s : TermInput) : Answer := termNativePoll .empty s

def polls : Nat → TermInput → List CTermEvent × TermInput
  | 0, s => ([], s)
  | n + 1, s =>
    let answer := termPollEvent s
    let later := polls n answer.2.2
    (if answer.1 then answer.2.1 :: later.1 else later.1, later.2)

/-! ## Keys and malformed pieces -/

/-- The numbers of the body of a CSI sequence, whose other bytes are skipped. -/
def csiFields : I64 → List UInt8 → List I64
  | value, [] => [value]
  | value, byte :: rest =>
    if byte ≥ '0'.toUInt8 ∧ byte ≤ '9'.toUInt8 then
      csiFields (value * 10 + byte.toBitVec.setWidth 64 - 48) rest
    else if byte = ';'.toUInt8 then value :: csiFields 0 rest
    else csiFields value rest

/-- A CSI sequence behind its `ESC [`. -/
structure CsiSequence where
  body : List UInt8
  final : UInt8
  isBody : ∀ byte ∈ body, 0x20 ≤ byte ∧ byte < 0x40
  isFinal : 0x40 ≤ final ∧ final < 0x7F

namespace CsiSequence

def bytes (seq : CsiSequence) : List UInt8 := escape :: '['.toUInt8 :: (seq.body ++ [seq.final])

def fields (seq : CsiSequence) : List I64 := csiFields 0 seq.body

def isMouse (seq : CsiSequence) : Bool :=
  '<'.toUInt8 ∈ seq.body ∧ (seq.final = 'M'.toUInt8 ∨ seq.final = 'm'.toUInt8)

def key (seq : CsiSequence) : I64 :=
  if seq.final = '~'.toUInt8 then termPosixTildeKey (seq.fields.getD 0 0)
  else if seq.final = 'Z'.toUInt8 then termKeyTab
  else termPosixFinalKey seq.final

def mods (seq : CsiSequence) : Option I64 :=
  if seq.final = 'Z'.toUInt8 then some termModShift
  else if seq.fields.length ≥ 2 ∧ BitVec.slt 0 (seq.fields.getD 1 0) then
    some (seq.fields.getD 1 0 - 1)
  else none

def hasAlt (seq : CsiSequence) : Bool := seq.mods.getD 0 &&& termModAlt ≠ 0

end CsiSequence

inductive Key where
  | ascii (byte : UInt8) (isAscii : byte < 0x80 ∧ byte ≠ escape)
  | rune (ch : Char) (large : 0x80 ≤ ch.val.toNat)
  | csi (seq : CsiSequence) (known : seq.isMouse = false ∧ seq.key ≠ 0)
  | ss3 (final : UInt8) (known : ss3Key final ≠ 0)

def isControl (byte : UInt8) : Bool :=
  0 < byte ∧ byte < 27 ∧ byte ≠ 8 ∧ byte ≠ '\t'.toUInt8 ∧ byte ≠ '\n'.toUInt8 ∧
    byte ≠ '\r'.toUInt8

def asciiCode (byte : UInt8) : I64 :=
  if byte = '\r'.toUInt8 ∨ byte = '\n'.toUInt8 then termKeyEnter
  else if byte = 8 then termKeyBackspace
  else if isControl byte then 0x61 + byte.toBitVec.setWidth 64 - 1
  else byte.toBitVec.setWidth 64

namespace Key

def bytes : Key → List UInt8
  | .ascii byte _ => [byte]
  | .rune ch _ => String.utf8EncodeChar ch
  | .csi seq _ => seq.bytes
  | .ss3 final _ => [escape, 'O'.toUInt8, final]

def code : Key → I64
  | .ascii byte _ => asciiCode byte
  | .rune ch _ => BitVec.ofNat 64 ch.val.toNat
  | .csi seq _ => seq.key
  | .ss3 final _ => ss3Key final

def mods : Key → I64
  | .ascii byte _ => if isControl byte then termModCtrl else 0
  | .csi seq _ => seq.mods.getD 0
  | .rune _ _ | .ss3 _ _ => 0

def ownMods : Key → Option I64
  | .csi seq _ => seq.mods
  | .ascii _ _ | .rune _ _ | .ss3 _ _ => none

def event (key : Key) (more : I64) : CTermEvent :=
  { CTermEvent.empty with type := .key, key := key.code, mods := more ||| key.mods }

end Key

inductive Piece where
  | key (key : Key)
  /-- ESC in front of a key, which does not begin as a CSI or SS3 sequence does. -/
  | alt (key : Key) (plain : ∀ byte ∈ key.bytes.head?, byte ≠ '['.toUInt8 ∧ byte ≠ 'O'.toUInt8)
  | mouse (seq : CsiSequence) (isMouse : seq.isMouse = true)
  /-- A continuation byte, or one that leads no code point. -/
  | stray (byte : UInt8) (isStray : 0x80 ≤ byte ∧ byte < 0xC2 ∨ 0xF5 ≤ byte)
  | unknown (seq : CsiSequence) (isUnknown : seq.isMouse = false ∧ seq.key = 0)

namespace Piece

def bytes : Piece → List UInt8
  | .key k => k.bytes
  | .alt k _ => escape :: k.bytes
  | .mouse seq _ => seq.bytes
  | .stray byte _ => [byte]
  | .unknown seq _ => seq.bytes

def isMalformed : Piece → Bool
  | .stray _ _ | .unknown _ _ => true
  | .key _ | .alt _ _ | .mouse _ _ => false

end Piece

def inputOf (pieces : List Piece) : List UInt8 := pieces.flatMap Piece.bytes

/-- The events are those of the keys, each once and in order, with their own modifiers; a
malformed piece gives nothing or a replacement. -/
inductive Reports : List Piece → List CTermEvent → Prop where
  | nil : Reports [] []
  | key {key : Key} {rest : List Piece} {events : List CTermEvent} (later : Reports rest events) :
      Reports (.key key :: rest) (key.event 0 :: events)
  | alt {key : Key} {plain : ∀ byte ∈ key.bytes.head?, byte ≠ '['.toUInt8 ∧ byte ≠ 'O'.toUInt8}
      {rest : List Piece} {events : List CTermEvent} (later : Reports rest events) :
      Reports (.alt key plain :: rest) (key.event termModAlt :: events)
  | mouse {seq : CsiSequence} {isMouse : seq.isMouse = true} {rest : List Piece}
      {events : List CTermEvent} (later : Reports rest events) :
      Reports (.mouse seq isMouse :: rest)
        (termPosixMouse .empty seq.fields seq.final :: events)
  | silent {piece : Piece} {rest : List Piece} {events : List CTermEvent}
      (malformed : piece.isMalformed = true) (later : Reports rest events) :
      Reports (piece :: rest) events
  | replaced {piece : Piece} {event : CTermEvent} {rest : List Piece} {events : List CTermEvent}
      (malformed : piece.isMalformed = true)
      (isReplacement : event.type = .key ∧ event.key = runeReplacement)
      (later : Reports rest events) : Reports (piece :: rest) (event :: events)

/-- Where no malformed piece reaches into a key that follows it, and no ESC is lost: the
constructors are what one call reads. -/
inductive Apart : List Piece → Prop where
  | nil : Apart []
  | key {key : Key} {rest : List Piece} (later : Apart rest) : Apart (.key key :: rest)
  /-- The modifiers of a CSI sequence take the place of the Alt in front of it. -/
  | alt {key : Key} {plain : ∀ byte ∈ key.bytes.head?, byte ≠ '['.toUInt8 ∧ byte ≠ 'O'.toUInt8}
      {rest : List Piece} (keeps : ∀ mods ∈ key.ownMods, mods &&& termModAlt ≠ 0)
      (later : Apart rest) : Apart (.alt key plain :: rest)
  | mouse {seq : CsiSequence} {isMouse : seq.isMouse = true} {rest : List Piece}
      (later : Apart rest) : Apart (.mouse seq isMouse :: rest)
  /-- The bytes that are read behind the first one are those of malformed pieces. -/
  | stray {byte : UInt8} {isStray : 0x80 ≤ byte ∧ byte < 0xC2 ∨ 0xF5 ≤ byte}
      {others rest : List Piece} (malformed : ∀ piece ∈ others, piece.isMalformed = true)
      (taken : (inputOf others).length = need byte ∨
        rest = [] ∧ (inputOf others).length < need byte)
      (later : Apart rest) : Apart (.stray byte isStray :: (others ++ rest))
  | unknown {seq : CsiSequence} {isUnknown : seq.isMouse = false ∧ seq.key = 0}
      {rest : List Piece} (noAlt : seq.hasAlt = false) (later : Apart rest) :
      Apart (.unknown seq isUnknown :: rest)
  /-- With an Alt in its modifiers, the next piece is read in the same call. -/
  | last {seq : CsiSequence} {isUnknown : seq.isMouse = false ∧ seq.key = 0}
      (alt : seq.hasAlt = true) : Apart [.unknown seq isUnknown]
  | twice {seq seq' : CsiSequence} {isUnknown : seq.isMouse = false ∧ seq.key = 0}
      {isUnknown' : seq'.isMouse = false ∧ seq'.key = 0} {rest : List Piece}
      (alt : seq.hasAlt = true) (later : Apart rest) :
      Apart (.unknown seq isUnknown :: .unknown seq' isUnknown' :: rest)
  | beforeStray {seq : CsiSequence} {isUnknown : seq.isMouse = false ∧ seq.key = 0}
      {byte : UInt8} {isStray : 0x80 ≤ byte ∧ byte < 0xC2 ∨ 0xF5 ≤ byte}
      {others rest : List Piece} (alt : seq.hasAlt = true)
      (malformed : ∀ piece ∈ others, piece.isMalformed = true)
      (taken : (inputOf others).length = need byte ∨
        rest = [] ∧ (inputOf others).length < need byte)
      (later : Apart rest) :
      Apart (.unknown seq isUnknown :: .stray byte isStray :: (others ++ rest))
  | own {seq : CsiSequence} {isUnknown : seq.isMouse = false ∧ seq.key = 0} {key : Key}
      {rest : List Piece} (alt : seq.hasAlt = true) (own : key.ownMods.isSome = true)
      (later : Apart rest) : Apart (.unknown seq isUnknown :: .key key :: rest)

/-- Whatever the number of calls is, if it is enough for the pieces, they read all of the input
and report its keys. -/
def Resynchronises (pieces : List Piece) : Prop :=
  ∀ n, pieces.length ≤ n → ∃ events,
    polls n ⟨[], inputOf pieces⟩ = (events, ⟨[], []⟩) ∧ Reports pieces events

end Aholyc.Term
