import Aholyc.Term.Keys

/-!
# Keys after malformed input (lib/term/posix.hc)

Each call reads one piece of the input, or the malformed ones that its first byte
reaches, and leaves the decoder as it was. So the keys are reported whatever lies
between them, as long as nothing malformed reaches into a key.
-/

namespace Aholyc.Term

open Aholyc.Text

variable {event : CTermEvent} {scan : CsiScan} {rest body : List UInt8}

/-! ## CSI sequences -/

theorem csiLoop_cons (scan : CsiScan) (byte : UInt8) (rest : List UInt8) :
    csiLoop scan ⟨[], byte :: rest⟩ =
      if byte ≥ '0'.toUInt8 ∧ byte ≤ '9'.toUInt8 then
        csiLoop { scan with value := scan.value * 10 + byte.toBitVec.setWidth 64 - 48 } ⟨[], rest⟩
      else if byte = ';'.toUInt8 then csiLoop { scan.store with value := 0 } ⟨[], rest⟩
      else if byte = '<'.toUInt8 then csiLoop { scan with mouse := true } ⟨[], rest⟩
      else if byte ≥ 0x40 then (some byte, scan.store, ⟨[], rest⟩)
      else csiLoop scan ⟨[], rest⟩ := by
  rw [csiLoop]
  rfl

def fill (params : List I64) (count : Nat) : List I64 → List I64
  | [] => params
  | value :: rest => fill (if count < 4 then params.set count value else params) (count + 1) rest

theorem fill_getElem (fields : List I64) {params : List I64} (isLength : params.length = 4)
    {count i : Nat} (less : i < 4) : (fill params count fields)[i]? =
      if count ≤ i ∧ i < count + fields.length then fields[i - count]? else params[i]? := by
  induction fields generalizing params count with
  | nil => rw [fill, if_neg (by rw [List.length_nil]; omega)]
  | cons value fields ih =>
    have stillFour : (if count < 4 then params.set count value else params).length = 4 := by
      split
      · rw [List.length_set, isLength]
      · exact isLength
    rw [fill, ih stillFour, List.length_cons]
    by_cases later : count + 1 ≤ i ∧ i < count + 1 + fields.length
    · rw [if_pos later, if_pos (by omega), show i - count = i - (count + 1) + 1 by omega,
        List.getElem?_cons_succ]
    rw [if_neg later]
    by_cases here : count = i
    · have inside : count ≤ i ∧ i < count + (fields.length + 1) := by omega
      have first : (params.set count value)[i]? = some value := by
        rw [here, List.getElem?_set_self (by omega)]
      rw [if_pos inside, show i - count = 0 by omega, List.getElem?_cons_zero,
        if_pos (show count < 4 by omega), first]
    · have outside : ¬ (count ≤ i ∧ i < count + (fields.length + 1)) := by omega
      rw [if_neg outside]
      split
      · exact List.getElem?_set_ne here
      · rfl

theorem fill_getD (fields : List I64) {i : Nat} (less : i < 4) :
    (fill [0, 0, 0, 0] 0 fields).getD i 0 = fields.getD i 0 := by
  rw [List.getD_eq_getElem?_getD, List.getD_eq_getElem?_getD, fill_getElem fields rfl less]
  by_cases inside : 0 ≤ i ∧ i < 0 + fields.length
  · rw [if_pos inside]
    rfl
  have zero : ([0, 0, 0, 0] : List I64)[i]?.getD 0 = 0 := by
    match i, less with
    | 0, _ => rfl
    | 1, _ => rfl
    | 2, _ => rfl
    | 3, _ => rfl
  have past : fields[i]? = none := List.getElem?_eq_none (by omega)
  rw [if_neg inside, zero, past]
  rfl

theorem csiLoop_spec {final : UInt8} (isBody : ∀ byte ∈ body, 0x20 ≤ byte ∧ byte < 0x40)
    (isFinal : 0x40 ≤ final) (scan : CsiScan) (rest : List UInt8) :
    ∃ last, csiLoop scan ⟨[], body ++ final :: rest⟩ = (some final, last, ⟨[], rest⟩) ∧
      last.params = fill scan.params scan.count (csiFields scan.value body) ∧
      last.count = scan.count + (csiFields scan.value body).length ∧
      (last.mouse = true ↔ scan.mouse = true ∨ '<'.toUInt8 ∈ body) := by
  have nine : '9'.toUInt8.toNat = 57 := rfl
  have zero : '0'.toUInt8.toNat = 48 := rfl
  have semicolon : ';'.toUInt8.toNat = 59 := rfl
  have less : '<'.toUInt8.toNat = 60 := rfl
  induction body generalizing scan with
  | nil =>
    have high : 64 ≤ final.toNat := UInt8.le_iff_toNat_le.mp isFinal
    have notDigit : ¬ (final ≥ '0'.toUInt8 ∧ final ≤ '9'.toUInt8) := by
      intro both
      have low := UInt8.le_iff_toNat_le.mp both.2
      omega
    have notSemicolon : final ≠ ';'.toUInt8 := by
      intro same
      rw [same] at high
      omega
    have notLess : final ≠ '<'.toUInt8 := by
      intro same
      rw [same] at high
      omega
    refine ⟨scan.store, ?_, rfl, rfl, ?_⟩
    · rw [List.nil_append, csiLoop_cons, if_neg notDigit, if_neg notSemicolon, if_neg notLess,
        if_pos isFinal]
    · constructor
      · intro mouse
        exact Or.inl mouse
      · intro either
        cases either with
        | inl mouse => exact mouse
        | inr no => cases no
  | cons byte body ih =>
    have isByte := isBody byte List.mem_cons_self
    have notFinal : ¬ byte ≥ 0x40 := by
      intro high
      have high' := UInt8.le_iff_toNat_le.mp high
      have low := UInt8.lt_iff_toNat_lt.mp isByte.2
      omega
    have ih' := ih fun b member => isBody b (List.mem_cons_of_mem _ member)
    rw [List.cons_append, csiLoop_cons]
    by_cases digit : byte ≥ '0'.toUInt8 ∧ byte ≤ '9'.toUInt8
    · obtain ⟨last, isLoop, params, count, mouse⟩ :=
        ih' { scan with value := scan.value * 10 + byte.toBitVec.setWidth 64 - 48 }
      have notLess : '<'.toUInt8 ≠ byte := by
        intro same
        have low := UInt8.le_iff_toNat_le.mp digit.2
        rw [← same] at low
        omega
      rw [if_pos digit, csiFields, if_pos digit]
      refine ⟨last, isLoop, params, count, mouse.trans ?_⟩
      rw [List.mem_cons, or_iff_right notLess]
    · by_cases isSemicolon : byte = ';'.toUInt8
      · obtain ⟨last, isLoop, params, count, mouse⟩ := ih' { scan.store with value := 0 }
        have notLess : '<'.toUInt8 ≠ byte := by
          rw [isSemicolon]
          decide
        rw [if_neg digit, if_pos isSemicolon, csiFields, if_neg digit, if_pos isSemicolon]
        refine ⟨last, isLoop, params, ?_, mouse.trans ?_⟩
        · rw [count, List.length_cons, Nat.add_comm (csiFields 0 body).length, ← Nat.add_assoc]
          rfl
        · rw [List.mem_cons, or_iff_right notLess]
          rfl
      · rw [if_neg digit, if_neg isSemicolon, csiFields, if_neg digit, if_neg isSemicolon]
        by_cases isLess : byte = '<'.toUInt8
        · obtain ⟨last, isLoop, params, count, mouse⟩ := ih' { scan with mouse := true }
          rw [if_pos isLess]
          refine ⟨last, isLoop, params, count, mouse.trans ?_⟩
          rw [isLess]
          exact ⟨fun _ => Or.inr List.mem_cons_self, fun _ => Or.inl rfl⟩
        · obtain ⟨last, isLoop, params, count, mouse⟩ := ih' scan
          rw [if_neg isLess, if_neg notFinal]
          refine ⟨last, isLoop, params, count, mouse.trans ?_⟩
          have notLess : '<'.toUInt8 ≠ byte := fun same => isLess same.symm
          rw [List.mem_cons, or_iff_right notLess]

theorem termPosixMouse_congr {params params' : List I64} (final : UInt8)
    (same : ∀ i < 4, params.getD i 0 = params'.getD i 0) :
    termPosixMouse event params final = termPosixMouse event params' final := by
  unfold termPosixMouse
  rw [same 0 (by decide), same 1 (by decide), same 2 (by decide)]

/-- A CSI sequence is a mouse report, or a key with its modifiers if it has any. -/
theorem termPosixCsi_spec (seq : CsiSequence) (event : CTermEvent) (rest : List UInt8) :
    termPosixCsi event ⟨[], seq.body ++ seq.final :: rest⟩ =
      if seq.isMouse then (true, termPosixMouse event seq.fields seq.final, ⟨[], rest⟩)
      else keyAnswer { event with mods := seq.mods.getD event.mods } seq.key ⟨[], rest⟩ := by
  obtain ⟨last, isLoop, params, count, mouse⟩ :=
    csiLoop_spec seq.isBody seq.isFinal.1 ⟨[0, 0, 0, 0], 0, 0, false⟩ rest
  have isParam {i : Nat} (less : i < 4) : last.params.getD i 0 = seq.fields.getD i 0 := by
    rw [params]
    exact fill_getD _ less
  have isCount : last.count = seq.fields.length := by
    rw [count]
    exact Nat.zero_add _
  have isMouse : (last.mouse = true ∧ (seq.final = 'M'.toUInt8 ∨ seq.final = 'm'.toUInt8)) ↔
      seq.isMouse = true := by
    unfold CsiSequence.isMouse
    rw [decide_eq_true_iff, mouse]
    exact and_congr_left fun _ => or_iff_right Bool.false_ne_true
  have isMods : csiSetMods event last = { event with
      mods := (if seq.fields.length ≥ 2 ∧ BitVec.slt 0 (seq.fields.getD 1 0) then
        some (seq.fields.getD 1 0 - 1) else none).getD event.mods } := by
    unfold csiSetMods
    rw [isCount, isParam (by decide)]
    split
    · rfl
    · rfl
  unfold termPosixCsi
  rw [isLoop]
  dsimp only
  unfold csiAnswer
  by_cases isReport : seq.isMouse = true
  · rw [if_pos (isMouse.mpr isReport), if_pos isReport,
      termPosixMouse_congr _ fun i less => isParam less]
  rw [if_neg (fun both => isReport (isMouse.mp both)), if_neg isReport, isParam (by decide),
    isMods]
  unfold CsiSequence.key CsiSequence.mods
  by_cases tilde : seq.final = '~'.toUInt8
  · have notZ : seq.final ≠ 'Z'.toUInt8 := by
      rw [tilde]
      decide
    rw [if_pos tilde, if_pos tilde, if_neg notZ]
  · by_cases isZ : seq.final = 'Z'.toUInt8
    · rw [if_neg tilde, if_neg tilde, if_pos isZ, if_pos isZ, if_pos isZ]
      rfl
    · rw [if_neg tilde, if_neg tilde, if_neg isZ, if_neg isZ, if_neg isZ]

/-! ## Keys -/

/-- The modifiers of an event that had some when the key was read. -/
def Key.applied (before : I64) : Key → I64
  | .ascii byte isAscii => before ||| (Key.ascii byte isAscii).mods
  | .csi seq _ => seq.mods.getD before
  | .rune _ _ | .ss3 _ _ => before

theorem keyAnswer_known {key : I64} (known : key ≠ 0) (event : CTermEvent) (s : TermInput) :
    keyAnswer event key s = (true, { event with type := .key, key := key }, s) :=
  if_neg known

theorem termPosixKey_csi (seq : CsiSequence) (event : CTermEvent) (rest : List UInt8) :
    termPosixKey event escape ⟨[], '['.toUInt8 :: (seq.body ++ seq.final :: rest)⟩ =
      if seq.isMouse then (true, termPosixMouse event seq.fields seq.final, ⟨[], rest⟩)
      else keyAnswer { event with mods := seq.mods.getD event.mods } seq.key ⟨[], rest⟩ := by
  rw [← termPosixCsi_spec]
  rfl

variable {byte : UInt8} {n : Nat} {s s' : TermInput} {pieces : List Piece}
  {events : List CTermEvent}

theorem termPosixKey_ascii (isAscii : byte < 0x80 ∧ byte ≠ escape) (event : CTermEvent)
    (s : TermInput) :
    termPosixKey event byte s = (true, { event with
      type := .key
      key := asciiCode byte
      mods := event.mods ||| (Key.ascii byte isAscii).mods }, s) := by
  have none' : event.mods ||| 0 = event.mods := BitVec.or_zero
  unfold termPosixKey Key.mods
  rw [if_neg isAscii.2]
  dsimp only
  by_cases enter : byte = '\r'.toUInt8 ∨ byte = '\n'.toUInt8
  · have isCode : asciiCode byte = termKeyEnter := if_pos enter
    have notControl : ¬ isControl byte = true := by
      cases enter with
      | inl same => rw [same]; decide
      | inr same => rw [same]; decide
    rw [if_pos enter, if_neg notControl, none', isCode]
  · rw [if_neg enter]
    by_cases backspace : byte = 8 ∨ byte = 127
    · have isCode : asciiCode byte = termKeyBackspace ∧ ¬ isControl byte = true := by
        cases backspace with
        | inl same => rw [same]; decide
        | inr same => rw [same]; decide
      rw [if_pos backspace, if_neg isCode.2, none', isCode.1]
    · rw [if_neg backspace]
      by_cases tab : byte = '\t'.toUInt8
      · have isCode : asciiCode byte = termKeyTab ∧ ¬ isControl byte = true := by
          rw [tab]
          decide
        rw [if_pos tab, if_neg isCode.2, none', isCode.1]
      · rw [if_neg tab]
        have notEight : byte ≠ 8 := fun same => backspace (Or.inl same)
        by_cases control : byte > 0 ∧ byte < 27
        · have isControl' : isControl byte = true := by
            unfold isControl
            rw [decide_eq_true_iff]
            exact ⟨control.1, control.2, notEight, tab, fun same => enter (Or.inr same),
              fun same => enter (Or.inl same)⟩
          have isCode : asciiCode byte = 0x61 + byte.toBitVec.setWidth 64 - 1 := by
            unfold asciiCode
            rw [if_neg enter, if_neg notEight, if_pos isControl']
          rw [if_pos control, if_pos isControl', isCode]
        · have notControl : ¬ isControl byte = true := by
            unfold isControl
            rw [decide_eq_true_iff]
            exact fun all => control ⟨all.1, all.2.1⟩
          have isCode : asciiCode byte = byte.toBitVec.setWidth 64 := by
            unfold asciiCode
            rw [if_neg enter, if_neg notEight, if_neg notControl]
          rw [if_neg control, if_pos isAscii.1, if_neg notControl, none', isCode]

theorem readBytes_append (bytes rest : List UInt8) :
    readBytes bytes.length ⟨[], bytes ++ rest⟩ = (some bytes, ⟨[], rest⟩) := by
  induction bytes with
  | nil => rfl
  | cons byte bytes ih =>
    rw [List.length_cons, readBytes, List.cons_append]
    dsimp only [termPosixByte]
    rw [ih]
    rfl

theorem readBytes_short {bytes : List UInt8} (short : bytes.length < n) :
    readBytes n ⟨[], bytes⟩ = (none, ⟨[], []⟩) := by
  induction bytes generalizing n with
  | nil =>
    cases n with
    | zero => cases short
    | succ n => rfl
  | cons byte bytes ih =>
    cases n with
    | zero => cases short
    | succ n =>
      rw [readBytes]
      dsimp only [termPosixByte]
      rw [ih (Nat.lt_of_succ_lt_succ short)]
      rfl

theorem termPosixKey_rune (large : 0x80 ≤ byte) (event : CTermEvent) (s : TermInput) :
    termPosixKey event byte s = runeAnswer { event with type := .key } byte s := by
  have high := UInt8.le_iff_toNat_le.mp large
  have notByte {other : UInt8} (small : other.toNat < 128) : byte ≠ other := by
    intro same
    rw [same] at high
    exact absurd small (Nat.not_lt.mpr high)
  have notLess {other : UInt8} (small : other.toNat ≤ 128) : ¬ byte < other := by
    intro less
    have less' := UInt8.lt_iff_toNat_lt.mp less
    have high' : 128 ≤ byte.toNat := high
    omega
  unfold termPosixKey
  rw [if_neg (notByte (by decide))]
  dsimp only
  rw [if_neg (fun either => either.elim (notByte (by decide)) (notByte (by decide))),
    if_neg (fun either => either.elim (notByte (by decide)) (notByte (by decide))),
    if_neg (notByte (by decide)), if_neg (fun both => notLess (by decide) both.2),
    if_neg (notLess (by decide))]

/-- The first byte of a code point says how many follow it. -/
theorem encode_need {ch : Char} (large : 0x80 ≤ ch.val.toNat) : ∃ first tail,
    String.utf8EncodeChar ch = first :: tail ∧ 0x80 ≤ first ∧ need first = tail.length := by
  have units := encode_toNat ch
  have bound := char_lt ch
  generalize String.utf8EncodeChar ch = bytes at units
  generalize ch.val.toNat = rune at *
  have isNeed {first : UInt8} {n : Nat} (isByte : first.toNat = n) :
      need first = if 0xF0 ≤ n then 3 else if 0xE0 ≤ n then 2 else 1 := by
    unfold need
    simp only [ge_iff_le, UInt8.le_iff_toNat_le, isByte]
    rfl
  unfold codeUnits at units
  rw [if_neg (by omega)] at units
  split at units
  · simp only [List.map_eq_cons_iff, List.map_eq_nil_iff] at units
    obtain ⟨first, _, rfl, one, second, _, rfl, two, rfl⟩ := units
    refine ⟨first, [second], rfl, ?_, ?_⟩
    · rw [UInt8.le_iff_toNat_le, one]
      change 128 ≤ _
      omega
    · rw [isNeed one, if_neg (by omega), if_neg (by omega)]
      rfl
  · split at units
    · simp only [List.map_eq_cons_iff, List.map_eq_nil_iff] at units
      obtain ⟨first, _, rfl, one, second, _, rfl, two, third, _, rfl, three, rfl⟩ := units
      refine ⟨first, [second, third], rfl, ?_, ?_⟩
      · rw [UInt8.le_iff_toNat_le, one]
        change 128 ≤ _
        omega
      · rw [isNeed one, if_neg (by omega), if_pos (by omega)]
        rfl
    · simp only [List.map_eq_cons_iff, List.map_eq_nil_iff] at units
      obtain ⟨first, _, rfl, one, second, _, rfl, two, third, _, rfl, three, fourth, _, rfl,
        four, rfl⟩ := units
      refine ⟨first, [second, third, fourth], rfl, ?_, ?_⟩
      · rw [UInt8.le_iff_toNat_le, one]
        change 128 ≤ _
        omega
      · rw [isNeed one, if_pos (by omega)]
        rfl

theorem Key.reads (key : Key) : ∃ first tail, key.bytes = first :: tail ∧
    ∀ (event : CTermEvent) (rest : List UInt8),
      termPosixKey event first ⟨[], tail ++ rest⟩ = (true, { event with
        type := .key
        key := key.code
        mods := key.applied event.mods }, ⟨[], rest⟩) := by
  cases key with
  | ascii byte isAscii =>
    refine ⟨byte, [], rfl, ?_⟩
    intro event rest
    exact termPosixKey_ascii isAscii event ⟨[], rest⟩
  | rune ch large =>
    obtain ⟨first, tail, isBytes, high, isNeed⟩ := encode_need large
    refine ⟨first, tail, isBytes, ?_⟩
    intro event rest
    have decoded := utf8DecodeRune_complete ch []
    rw [List.append_nil, isBytes] at decoded
    rw [termPosixKey_rune high]
    unfold runeAnswer
    rw [isNeed, readBytes_append]
    dsimp only
    rw [decoded]
    rfl
  | csi seq known =>
    refine ⟨escape, '['.toUInt8 :: (seq.body ++ [seq.final]), rfl, ?_⟩
    intro event rest
    rw [List.cons_append, List.append_assoc, List.singleton_append, termPosixKey_csi,
      if_neg (by rw [known.1]; exact Bool.false_ne_true), keyAnswer_known known.2]
    rfl
  | ss3 final known =>
    refine ⟨escape, ['O'.toUInt8, final], rfl, ?_⟩
    intro event rest
    have isAnswer : termPosixKey event escape ⟨[], ['O'.toUInt8, final] ++ rest⟩ =
        keyAnswer event (ss3Key final) ⟨[], rest⟩ := rfl
    rw [isAnswer, keyAnswer_known known]
    rfl

theorem zero_or (mods : I64) : 0 ||| mods = mods := BitVec.zero_or

theorem Key.applied_zero (key : Key) : key.applied 0 = 0 ||| key.mods := by
  rw [zero_or]
  cases key with
  | ascii byte isAscii => exact zero_or _
  | rune ch large => rfl
  | csi seq known => rfl
  | ss3 final known => rfl

theorem or_alt {mods : I64} (alt : mods &&& termModAlt ≠ 0) : termModAlt ||| mods = mods := by
  have isPower : termModAlt = BitVec.twoPow 64 1 := by decide
  have bit : mods.getLsbD 1 = true := by
    by_contra notBit
    rw [isPower, BitVec.and_twoPow, if_neg notBit] at alt
    exact alt rfl
  apply BitVec.eq_of_getLsbD_eq
  intro i less
  rw [isPower, BitVec.getLsbD_or, BitVec.getLsbD_twoPow]
  by_cases isOne : 1 = i
  · rw [← isOne, bit, Bool.or_true]
  · rw [decide_eq_false isOne, Bool.and_false, Bool.false_or]

variable {key : Key}

theorem Key.applied_alt (keeps : ∀ mods ∈ key.ownMods, mods &&& termModAlt ≠ 0) :
    key.applied termModAlt = termModAlt ||| key.mods := by
  cases key with
  | ascii byte isAscii => rfl
  | rune ch large => exact BitVec.or_zero.symm
  | csi seq known =>
    have isApplied : Key.applied termModAlt (.csi seq known) = seq.mods.getD termModAlt := rfl
    have isOwn : (Key.csi seq known).mods = seq.mods.getD 0 := rfl
    rw [isApplied, isOwn]
    cases isMods : seq.mods with
    | none => exact BitVec.or_zero.symm
    | some mods => exact (or_alt (keeps mods isMods)).symm
  | ss3 final known => exact BitVec.or_zero.symm

/-- The modifiers of a sequence take the place of all others. -/
theorem Key.applied_own (own : key.ownMods.isSome = true) (before : I64) :
    key.applied before = 0 ||| key.mods := by
  cases key with
  | ascii byte isAscii => cases own
  | rune ch large => cases own
  | csi seq known =>
    obtain ⟨mods, isMods⟩ := Option.isSome_iff_exists.mp own
    have isMods' : seq.mods = some mods := isMods
    have isApplied : Key.applied before (.csi seq known) = seq.mods.getD before := rfl
    have isOwn : (Key.csi seq known).mods = seq.mods.getD 0 := rfl
    rw [zero_or, isApplied, isOwn, isMods']
    rfl
  | ss3 final known => cases own

/-! ## Calls -/

theorem termPollEvent_cons (byte : UInt8) (rest : List UInt8) :
    termPollEvent ⟨[], byte :: rest⟩ =
      let first := termPosixKey .empty byte ⟨[], rest⟩
      if first.1 then first
      else if first.2.1.mods &&& termModAlt ≠ 0 then
        match termPosixByte first.2.2 with
        | none => (false, first.2)
        | some (byte, s) => termPosixKey first.2.1 byte s
      else (false, first.2) := rfl

theorem poll_key (key : Key) (rest : List UInt8) :
    termPollEvent ⟨[], key.bytes ++ rest⟩ = (true, key.event 0, ⟨[], rest⟩) := by
  obtain ⟨first, tail, isBytes, reads⟩ := key.reads
  have isEvent : { CTermEvent.empty with
      type := .key
      key := key.code
      mods := key.applied CTermEvent.empty.mods } = key.event 0 := by
    unfold Key.event
    rw [← key.applied_zero]
    rfl
  rw [isBytes, List.cons_append, termPollEvent_cons, reads, isEvent]
  rfl

theorem poll_alt (key : Key)
    (plain : ∀ byte ∈ key.bytes.head?, byte ≠ '['.toUInt8 ∧ byte ≠ 'O'.toUInt8)
    (keeps : ∀ mods ∈ key.ownMods, mods &&& termModAlt ≠ 0) (rest : List UInt8) :
    termPollEvent ⟨[], escape :: (key.bytes ++ rest)⟩ =
      (true, key.event termModAlt, ⟨[], rest⟩) := by
  obtain ⟨first, tail, isBytes, reads⟩ := key.reads
  have isPlain := plain first (by rw [isBytes]; rfl)
  have isEscape : termPosixKey .empty escape ⟨[], first :: (tail ++ rest)⟩ =
      (false, { CTermEvent.empty with mods := termModAlt }, ⟨[first], tail ++ rest⟩) := by
    have isAnswer : termPosixKey .empty escape ⟨[], first :: (tail ++ rest)⟩ =
        termPosixEscape .empty ⟨[], first :: (tail ++ rest)⟩ := rfl
    rw [isAnswer]
    unfold termPosixEscape
    dsimp only [termPosixByte]
    rw [if_neg isPlain.1, if_neg isPlain.2]
    rfl
  have isEvent : { CTermEvent.empty with
      type := .key
      key := key.code
      mods := key.applied termModAlt } = key.event termModAlt := by
    unfold Key.event
    rw [← Key.applied_alt keeps]
  rw [isBytes, List.cons_append, termPollEvent_cons, isEscape]
  dsimp only [termPosixByte]
  rw [if_neg Bool.false_ne_true, if_pos (by decide), reads]
  dsimp only
  rw [isEvent]

theorem CsiSequence.bytes_append (seq : CsiSequence) (rest : List UInt8) :
    seq.bytes ++ rest = escape :: '['.toUInt8 :: (seq.body ++ seq.final :: rest) := by
  unfold CsiSequence.bytes
  rw [List.cons_append, List.cons_append, List.append_assoc, List.singleton_append]

theorem poll_mouse {seq : CsiSequence} (isMouse : seq.isMouse = true) (rest : List UInt8) :
    termPollEvent ⟨[], seq.bytes ++ rest⟩ =
      (true, termPosixMouse .empty seq.fields seq.final, ⟨[], rest⟩) := by
  rw [seq.bytes_append, termPollEvent_cons, termPosixKey_csi, if_pos isMouse]
  rfl

/-- A sequence without a key: with an Alt in its modifiers the next byte is read too. -/
theorem poll_unknown {seq : CsiSequence} (isUnknown : seq.isMouse = false ∧ seq.key = 0)
    (rest : List UInt8) : termPollEvent ⟨[], seq.bytes ++ rest⟩ =
      if seq.hasAlt then
        match termPosixByte ⟨[], rest⟩ with
        | none => (false, { CTermEvent.empty with mods := seq.mods.getD 0 }, ⟨[], rest⟩)
        | some (byte, s) => termPosixKey { CTermEvent.empty with mods := seq.mods.getD 0 } byte s
      else (false, { CTermEvent.empty with mods := seq.mods.getD 0 }, ⟨[], rest⟩) := by
  have notMouse : ¬ seq.isMouse = true := by
    rw [isUnknown.1]
    exact Bool.false_ne_true
  rw [seq.bytes_append, termPollEvent_cons, termPosixKey_csi, if_neg notMouse]
  unfold keyAnswer CsiSequence.hasAlt
  rw [if_pos isUnknown.2]
  dsimp only
  rw [if_neg Bool.false_ne_true]
  by_cases alt : seq.mods.getD 0 &&& termModAlt ≠ 0
  · rw [decide_eq_true alt, if_pos rfl]
    exact if_pos alt
  · rw [decide_eq_false alt, if_neg Bool.false_ne_true]
    exact if_neg alt

theorem termPosixKey_stray (isStray : 0x80 ≤ byte ∧ byte < 0xC2 ∨ 0xF5 ≤ byte) (event : CTermEvent)
    {taken rest : List UInt8}
    (isTaken : taken.length = need byte ∨ rest = [] ∧ taken.length < need byte) :
    ∃ got last, termPosixKey event byte ⟨[], taken ++ rest⟩ = (got, last, ⟨[], rest⟩) ∧
      last.mods = event.mods ∧
      (got = true → last.type = .key ∧ last.key = runeReplacement) := by
  have large : 0x80 ≤ byte := by
    cases isStray with
    | inl low => exact low.1
    | inr high => exact UInt8.le_trans (by decide) high
  have notDecoded (tail : List UInt8) : utf8DecodeRune (byte :: tail) = none := by
    unfold utf8DecodeRune
    simp only [within, UInt8.lt_iff_toNat_lt, UInt8.le_iff_toNat_le, Bool.and_eq_true,
      decide_eq_true_eq, UInt8.reduceToNat] at isStray large ⊢
    rw [if_neg (by omega), if_neg (by omega), if_neg (by omega), if_neg (by omega)]
  rw [termPosixKey_rune large]
  unfold runeAnswer
  cases isTaken with
  | inl whole =>
    rw [← whole, readBytes_append]
    dsimp only
    rw [notDecoded]
    exact ⟨true, _, rfl, rfl, fun _ => ⟨rfl, rfl⟩⟩
  | inr short =>
    rw [short.1, List.append_nil, readBytes_short short.2]
    exact ⟨false, _, rfl, rfl, fun no => by cases no⟩

theorem poll_stray (isStray : 0x80 ≤ byte ∧ byte < 0xC2 ∨ 0xF5 ≤ byte) {taken rest : List UInt8}
    (isTaken : taken.length = need byte ∨ rest = [] ∧ taken.length < need byte) :
    ∃ got last, termPollEvent ⟨[], byte :: (taken ++ rest)⟩ = (got, last, ⟨[], rest⟩) ∧
      (got = true → last.type = .key ∧ last.key = runeReplacement) := by
  obtain ⟨got, last, isAnswer, mods, isReplacement⟩ :=
    termPosixKey_stray isStray .empty isTaken
  rw [termPollEvent_cons, isAnswer]
  cases got with
  | true => exact ⟨true, last, rfl, isReplacement⟩
  | false =>
    dsimp only
    rw [if_neg Bool.false_ne_true, mods, if_neg (fun alt => alt rfl)]
    exact ⟨false, last, rfl, fun no => by cases no⟩

/-! ## Runs -/

theorem polls_empty (n : Nat) : polls n ⟨[], []⟩ = ([], ⟨[], []⟩) := by
  induction n with
  | zero => rfl
  | succ n ih =>
    have isAnswer : termPollEvent ⟨[], []⟩ = (false, .empty, ⟨[], []⟩) := rfl
    rw [polls, isAnswer]
    dsimp only
    rw [ih]
    rfl

theorem polls_answer {got : Bool} (poll : termPollEvent s = (got, event, s')) : polls (n + 1) s =
      (if got then event :: (polls n s').1 else (polls n s').1, (polls n s').2) := by
  rw [polls, poll]

theorem polls_got (poll : termPollEvent s = (true, event, s')) :
    polls (n + 1) s = (event :: (polls n s').1, (polls n s').2) := polls_answer poll

theorem polls_none (poll : termPollEvent s = (false, event, s')) :
    polls (n + 1) s = polls n s' := polls_answer poll

theorem inputOf_cons (piece : Piece) (pieces : List Piece) :
    inputOf (piece :: pieces) = piece.bytes ++ inputOf pieces := List.flatMap_cons

theorem inputOf_append (pieces more : List Piece) :
    inputOf (pieces ++ more) = inputOf pieces ++ inputOf more := List.flatMap_append

theorem takes {others rest : List Piece}
    (taken : (inputOf others).length = need byte ∨ rest = [] ∧ (inputOf others).length < need byte) :
    (inputOf others).length = need byte ∨
      inputOf rest = [] ∧ (inputOf others).length < need byte := by
  apply Or.imp_right _ taken
  intro short
  rw [short.1]
  exact ⟨rfl, short.2⟩

theorem Reports.silent_all {others : List Piece}
    (malformed : ∀ piece ∈ others, piece.isMalformed = true) (later : Reports pieces events) :
    Reports (others ++ pieces) events := by
  induction others with
  | nil => exact later
  | cons piece others ih =>
    apply Reports.silent (malformed piece List.mem_cons_self)
    exact ih fun other member => malformed other (List.mem_cons_of_mem _ member)

/-- The first piece of a call that reports nothing or a replacement. -/
theorem Reports.malformed {piece : Piece} {got : Bool} (isMalformed : piece.isMalformed = true)
    (isReplacement : got = true → event.type = .key ∧ event.key = runeReplacement)
    (later : Reports pieces events) :
    Reports (piece :: pieces) (if got then event :: events else events) := by
  cases got with
  | true => exact .replaced isMalformed (isReplacement rfl) later
  | false => exact .silent isMalformed later

/-- Where no malformed piece reaches into a key, enough calls read all of the input and report
every key once and in order, with its own modifiers. -/
theorem termPollEvent_resynchronises {pieces : List Piece} (apart : Apart pieces) :
    Resynchronises pieces := by
  unfold Resynchronises
  induction apart with
  | nil =>
      intro n _
      exact ⟨[], polls_empty n, .nil⟩
  | @key key rest later ih =>
      intro n enough
      cases n with
      | zero => cases enough
      | succ n =>
          obtain ⟨events, isRun, reports⟩ := ih n (Nat.le_of_succ_le_succ enough)
          refine ⟨_, ?_, .key reports⟩
          rw [inputOf_cons]
          exact (polls_got (poll_key key _)).trans (by rw [isRun])
  | @alt key plain rest keeps later ih =>
      intro n enough
      cases n with
      | zero => cases enough
      | succ n =>
          obtain ⟨events, isRun, reports⟩ := ih n (Nat.le_of_succ_le_succ enough)
          refine ⟨_, ?_, .alt reports⟩
          rw [inputOf_cons]
          exact (polls_got (poll_alt key plain keeps _)).trans (by rw [isRun])
  | @mouse seq isMouse rest later ih =>
      intro n enough
      cases n with
      | zero => cases enough
      | succ n =>
          obtain ⟨events, isRun, reports⟩ := ih n (Nat.le_of_succ_le_succ enough)
          refine ⟨_, ?_, .mouse reports⟩
          rw [inputOf_cons]
          exact (polls_got (poll_mouse isMouse _)).trans (by rw [isRun])
  | @stray byte isStray others rest malformed taken later ih =>
      intro n enough
      cases n with
      | zero => cases enough
      | succ n =>
          rw [List.length_cons, List.length_append] at enough
          obtain ⟨events, isRun, reports⟩ := ih n (by omega)
          obtain ⟨got, event, poll, isReplacement⟩ := poll_stray isStray (takes taken)
          refine ⟨_, ?_, .malformed rfl isReplacement (.silent_all malformed reports)⟩
          rw [inputOf_cons, inputOf_append]
          exact (polls_answer poll).trans (by rw [isRun])
  | @unknown seq isUnknown rest noAlt later ih =>
      intro n enough
      cases n with
      | zero => cases enough
      | succ n =>
          obtain ⟨events, isRun, reports⟩ := ih n (Nat.le_of_succ_le_succ enough)
          refine ⟨events, ?_, .silent rfl reports⟩
          have poll := poll_unknown isUnknown (inputOf rest)
          rw [noAlt, if_neg Bool.false_ne_true] at poll
          rw [inputOf_cons]
          exact (polls_none poll).trans isRun
  | @last seq isUnknown alt =>
      intro n enough
      cases n with
      | zero => cases enough
      | succ n =>
          have poll := poll_unknown isUnknown []
          rw [alt, if_pos rfl] at poll
          refine ⟨[], ?_, .silent rfl .nil⟩
          rw [inputOf_cons]
          exact (polls_none poll).trans (polls_empty n)
  | @twice seq seq' isUnknown isUnknown' rest alt later ih =>
      intro n enough
      cases n with
      | zero => cases enough
      | succ n =>
          rw [List.length_cons, List.length_cons] at enough
          obtain ⟨events, isRun, reports⟩ := ih n (by omega)
          have notMouse : ¬ seq'.isMouse = true := by
            rw [isUnknown'.1]
            exact Bool.false_ne_true
          have poll := poll_unknown isUnknown (seq'.bytes ++ inputOf rest)
          rw [alt, if_pos rfl, seq'.bytes_append] at poll
          dsimp only [termPosixByte] at poll
          rw [termPosixKey_csi, if_neg notMouse, keyAnswer, if_pos isUnknown'.2] at poll
          refine ⟨events, ?_, .silent rfl (.silent rfl reports)⟩
          rw [inputOf_cons, inputOf_cons]
          change polls (n + 1) ⟨[], seq.bytes ++ (seq'.bytes ++ inputOf rest)⟩ = _
          rw [seq'.bytes_append]
          exact (polls_none poll).trans isRun
  | @beforeStray seq isUnknown byte isStray others rest alt malformed taken later ih =>
      intro n enough
      cases n with
      | zero => cases enough
      | succ n =>
          rw [List.length_cons, List.length_cons, List.length_append] at enough
          obtain ⟨events, isRun, reports⟩ := ih n (by omega)
          obtain ⟨got, event, isKey, _, isReplacement⟩ := termPosixKey_stray isStray
            { CTermEvent.empty with mods := seq.mods.getD 0 } (takes taken)
          have poll := poll_unknown isUnknown (byte :: (inputOf others ++ inputOf rest))
          rw [alt, if_pos rfl] at poll
          dsimp only [termPosixByte] at poll
          rw [isKey] at poll
          refine ⟨_, ?_, .silent rfl (.malformed rfl isReplacement (.silent_all malformed reports))⟩
          rw [inputOf_cons, inputOf_cons, inputOf_append]
          exact (polls_answer poll).trans (by rw [isRun])
  | @own seq isUnknown key rest alt own later ih =>
      intro n enough
      cases n with
      | zero => cases enough
      | succ n =>
          rw [List.length_cons, List.length_cons] at enough
          obtain ⟨events, isRun, reports⟩ := ih n (by omega)
          obtain ⟨first, tail, isBytes, reads⟩ := key.reads
          have isEvent : { CTermEvent.empty with
              type := .key
              key := key.code
              mods := key.applied (seq.mods.getD 0) } = key.event 0 := by
            unfold Key.event
            rw [Key.applied_own own]
          have poll := poll_unknown isUnknown (key.bytes ++ inputOf rest)
          rw [alt, if_pos rfl, isBytes, List.cons_append] at poll
          dsimp only [termPosixByte] at poll
          rw [reads, isEvent] at poll
          refine ⟨_, ?_, .silent rfl (.key reports)⟩
          rw [inputOf_cons, inputOf_cons]
          change polls (n + 1) ⟨[], seq.bytes ++ (key.bytes ++ inputOf rest)⟩ = _
          rw [isBytes, List.cons_append]
          exact (polls_got poll).trans (by rw [isRun])

theorem termPollEvent_resynchronises_typing :
    Resynchronises
      [.key (.ascii 'a'.toUInt8 (by decide)),
        .unknown ⟨[], 'x'.toUInt8, by simp, by decide⟩ (by decide),
        .stray 0xFF (by decide), .stray 0x80 (by decide), .stray 0x80 (by decide),
        .stray 0x80 (by decide), .key (.rune 'é' (by decide)),
        .alt (.ascii 'b'.toUInt8 (by decide)) (fun _ isFirst => by cases isFirst; decide)] := by
  apply termPollEvent_resynchronises
  apply Apart.key
  apply Apart.unknown (by decide)
  apply @Apart.stray 0xFF (by decide)
    [.stray 0x80 (by decide), .stray 0x80 (by decide), .stray 0x80 (by decide)]
  · intro piece member
    simp only [List.mem_cons, List.not_mem_nil, or_false, or_self] at member
    rw [member]
    rfl
  · exact Or.inl rfl
  · apply Apart.key
    apply Apart.alt
    · intro mods isOwn
      cases isOwn
    · exact Apart.nil

theorem Reports.has_key (reports : Reports pieces events) (member : Piece.key key ∈ pieces) :
    key.event 0 ∈ events := by
  induction reports with
  | nil => cases member
  | key later ih =>
    rw [List.mem_cons] at member
    cases member with
    | inl same =>
      cases same
      exact List.mem_cons_self
    | inr inRest => exact List.mem_cons_of_mem _ (ih inRest)
  | alt later ih | mouse later ih =>
    rw [List.mem_cons] at member
    cases member with
    | inl same => cases same
    | inr inRest => exact List.mem_cons_of_mem _ (ih inRest)
  | silent malformed later ih =>
    rw [List.mem_cons] at member
    cases member with
    | inl same =>
      rw [← same] at malformed
      cases malformed
    | inr inRest => exact ih inRest
  | replaced malformed isReplacement later ih =>
    rw [List.mem_cons] at member
    cases member with
    | inl same =>
      rw [← same] at malformed
      cases malformed
    | inr inRest => exact List.mem_cons_of_mem _ (ih inRest)

theorem not_resynchronises (member : Piece.key key ∈ pieces)
    (missing : key.event 0 ∉ (polls pieces.length ⟨[], inputOf pieces⟩).1) :
    ¬ Resynchronises pieces := by
  intro resynchronises
  obtain ⟨events, isRun, reports⟩ := resynchronises pieces.length (Nat.le_refl _)
  rw [isRun] at missing
  exact missing (reports.has_key member)

/-- The continuation byte takes the letter with it, and the modifiers of the sequence become
those of the letter. -/
theorem malformed_takes_key :
    ¬ Resynchronises [.stray 0x80 (by decide), .key (.ascii 'a'.toUInt8 (by decide))] ∧
    ¬ Resynchronises
      [.unknown ⟨[0x31, 0x3B, 0x33], 'x'.toUInt8, by simp, by decide⟩ (by decide),
        .key (.ascii 'a'.toUInt8 (by decide))] := by
  constructor
  · exact not_resynchronises (List.mem_cons_of_mem _ List.mem_cons_self) (by decide +kernel)
  · exact not_resynchronises (List.mem_cons_of_mem _ List.mem_cons_self) (by decide +kernel)

end Aholyc.Term
