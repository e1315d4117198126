import Aholyc.Http.Segments

/-!
# URLs

`HttpUrlParse` of lib/http/http.hc and what lib/http/client.hc builds from its result: the
request line and the value of the Host header. What an accepted URL puts into them is cut out
of its text, or the default, and holds no blank and no control character.
-/

namespace Aholyc.Http

open Aholyc.Lib

structure CHttpUrl where
  secure : Bool := false
  ipv6 : Bool := false
  host : Pointer := none
  port : Nat := 0
  target : Pointer := none
  deriving DecidableEq

/-! ## The parser -/

/-- The loop of `HttpParsePort`; `none` for `FALSE`. -/
def portDigits (text : List UInt8) (finish i value : Nat) : Checked (Option Nat) :=
  if i < finish then do
    let byte ← byteAt text i
    if byte < '0'.toUInt8 ∨ byte > '9'.toUInt8 then
      .ok none
    else
      let value := value * 10 + (byte - '0'.toUInt8).toNat
      if value > 65535 then .ok none else portDigits text finish (i + 1) value
  else
    .ok (some value)
termination_by finish - i

def httpParsePort (text : List UInt8) (start finish : Nat) : Checked (Option Nat) :=
  if start ≥ finish then
    .ok none
  else do
    match ← portDigits text finish start 0 with
    | none => .ok none
    | some value => if value = 0 then .ok none else .ok (some value)

def isHostByte (byte : UInt8) : Bool := !(byte ≤ 32 || byte == 127 || byte == '@'.toUInt8)

def httpHostIsSafe (host : Pointer) : Checked Bool :=
  match host with
  | none => .ok false
  | some host => do
    if isNul (← byteAt host 0) then .ok false else allBefore isNul isHostByte host

def closeBracket (text : List UInt8) (finish i : Nat) (found : Option Nat) :
    Checked (Option Nat) :=
  if i < finish then do
    let byte ← byteAt text i
    closeBracket text finish (i + 1)
      (if byte = ']'.toUInt8 ∧ found = none then some i else found)
  else
    .ok found
termination_by finish - i

/-- The last colon of the authority and how many there are; `none` when it has an `@`. -/
def scanColons (text : List UInt8) (finish i colon count : Nat) : Checked (Option (Nat × Nat)) :=
  if i < finish then do
    let byte ← byteAt text i
    if byte = '@'.toUInt8 then .ok none
    else if byte = ':'.toUInt8 then scanColons text finish (i + 1) i (count + 1)
    else scanColons text finish (i + 1) colon count
  else
    .ok (some (colon, count))
termination_by finish - i

def bracketHost (text : List UInt8) (start finish : Nat) (url : CHttpUrl) :
    Checked (Bool × CHttpUrl) := do
  match ← closeBracket text finish (start + 1) none with
  | none => .ok (false, url)
  | some close =>
    let host ← httpSlice (some text) (start + 1) close
    let url := { url with ipv6 := true, host := host }
    if close + 1 < finish then
      if (← byteAt text (close + 1)) ≠ ':'.toUInt8 then
        .ok (false, {})
      else
        match ← httpParsePort text (close + 2) finish with
        | none => .ok (false, {})
        | some port => .ok (true, { url with port := port })
    else
      .ok (true, url)

def plainHost (text : List UInt8) (start finish : Nat) (url : CHttpUrl) :
    Checked (Bool × CHttpUrl) := do
  match ← scanColons text finish start 0 0 with
  | none => .ok (false, {})
  | some (colon, count) =>
    if count > 1 then
      .ok (false, {})
    else if count = 1 then
      let host ← httpSlice (some text) start colon
      match ← httpParsePort text (colon + 1) finish with
      | none => .ok (false, {})
      | some port => .ok (true, { url with host := host, port := port })
    else
      let host ← httpSlice (some text) start finish
      .ok (true, { url with host := host })

def parseHost (text : List UInt8) (start finish : Nat) (url : CHttpUrl) :
    Checked (Bool × CHttpUrl) := do
  if (← byteAt text start) = '['.toUInt8 then bracketHost text start finish url
  else plainHost text start finish url

/-- The target from the end of the authority to the fragment; a query alone gets its path,
and `HttpBufferAppend` refuses one that is too long. -/
def targetOf (text : List UInt8) (finish fragment : Nat) : Checked Pointer := do
  if finish = fragment then
    .ok (some (literal "/" ++ [0]))
  else if (← byteAt text finish) = '?'.toUInt8 then
    if 1 + (fragment - finish) > httpMaxMessage then
      .ok none
    else
      return (← httpSlice (some text) finish fragment).map (literal "/" ++ ·)
  else
    httpSlice (some text) finish fragment

def isFragmentByte (byte : UInt8) : Bool := byte == '#'.toUInt8

def parseTarget (text : List UInt8) (length finish : Nat) (url : CHttpUrl) :
    Checked (Bool × CHttpUrl) := do
  let fragment := finish + (← countWhile (!isFragmentByte ·) text length finish)
  let target ← targetOf text finish fragment
  if ← httpTargetIsSafe target then .ok (true, { url with target := target })
  else .ok (false, {})

def isAuthorityByte (byte : UInt8) : Bool :=
  byte != '/'.toUInt8 && byte != '?'.toUInt8 && byte != '#'.toUInt8

def parseAuthority (text : List UInt8) (start : Nat) (url : CHttpUrl) :
    Checked (Bool × CHttpUrl) := do
  let length ← strLen text
  let finish := start + (← countWhile isAuthorityByte text length start)
  if finish = start then
    .ok (false, url)
  else
    let (found, url) ← parseHost text start finish url
    if ¬found then
      .ok (false, url)
    else if ← httpHostIsSafe url.host then
      parseTarget text length finish url
    else
      .ok (false, {})

def httpUrlParse (text : Pointer) : Checked (Bool × CHttpUrl) :=
  match text with
  | none => .ok (false, {})
  | some text => do
    if ← httpStartsWithInsensitive text (literal "https://") then
      parseAuthority text 8 { secure := true, port := 443 }
    else if ← httpStartsWithInsensitive text (literal "http://") then
      parseAuthority text 7 { port := 80 }
    else
      .ok (false, {})

/-! ## What the client sends -/

def printed (pointer : Pointer) : List UInt8 := cString (pointer.getD [])

def decimal (value : Nat) : List UInt8 := (Nat.toDigits 10 value).map Char.toUInt8

def httpHostHeader (url : CHttpUrl) : List UInt8 :=
  let defaultPort := !url.secure && url.port == 80 || url.secure && url.port == 443
  if url.ipv6 then
    if defaultPort then literal "[" ++ printed url.host ++ literal "]"
    else literal "[" ++ printed url.host ++ literal "]:" ++ decimal url.port
  else if defaultPort then
    printed url.host
  else
    printed url.host ++ literal ":" ++ decimal url.port

def requestHead (method : List UInt8) (url : CHttpUrl) : List UInt8 :=
  method ++ literal " " ++ printed url.target ++ literal " HTTP/1.1\r\n" ++
    (literal "Host: " ++ httpHostHeader url ++ literal "\r\n")

/-! ## Slices -/

def slice (text : List UInt8) (start finish : Nat) : List UInt8 := (text.take finish).drop start

theorem mem_slice {text : List UInt8} {start finish : Nat} {byte : UInt8}
    (member : byte ∈ slice text start finish) :
    ∃ i, start ≤ i ∧ i < finish ∧ text[i]? = some byte := by
  unfold slice at member
  obtain ⟨i, isByte⟩ := List.mem_iff_getElem?.mp member
  rw [List.getElem?_drop, List.getElem?_take] at isByte
  split at isByte
  next less => exact ⟨start + i, by omega, less, isByte⟩
  next => cases isByte

section

variable (text : List UInt8)

theorem cString_front : cString text <+: text ++ [0] :=
  (List.takeWhile_prefix _).trans (List.prefix_append _ _)

theorem cString_nonzero {byte : UInt8} (member : byte ∈ cString text) : byte ≠ 0 := by
  intro isZero
  have kept := List.mem_takeWhile_imp member
  rw [isZero] at kept
  cases kept

theorem cString_self {bytes : List UInt8} (nonzero : ∀ byte ∈ bytes, byte ≠ 0) :
    cString bytes = bytes := by
  unfold cString
  rw [List.takeWhile_eq_self_iff]
  intro byte member
  simpa [isNul] using nonzero byte member

theorem printed_string {bytes : List UInt8} (nonzero : ∀ byte ∈ bytes, byte ≠ 0) :
    printed (some (bytes ++ [0])) = bytes := by
  have all : ∀ byte ∈ bytes, (!isNul byte) = true := by
    intro byte member
    simpa [isNul] using nonzero byte member
  unfold printed cString
  rw [Option.getD_some, List.takeWhile_append_of_pos all, List.takeWhile_cons_of_neg (by decide),
    List.append_nil]

variable {text}

/-- The bytes up to the NUL are those of the C string. -/
theorem slice_block {start finish : Nat} (inside : finish ≤ (cString text).length) :
    slice (text ++ [0]) start finish = slice (cString text) start finish := by
  obtain ⟨rest, isBlock⟩ := cString_front text
  unfold slice
  rw [← isBlock, List.take_append_of_le_length inside]

theorem httpSlice_string {start finish : Nat} (order : start ≤ finish)
    (inside : finish ≤ (cString text).length) :
    httpSlice (some (text ++ [0])) start finish =
      .ok (some (slice (cString text) start finish ++ [0])) := by
  have le := (cString_front text).length_le
  rw [httpSlice_eq _ order (by omega), ← slice_block inside, slice, List.drop_take]

theorem slice_nonzero {start finish : Nat} {byte : UInt8}
    (member : byte ∈ slice (cString text) start finish) : byte ≠ 0 :=
  cString_nonzero text (List.mem_of_mem_take (List.mem_of_mem_drop member))

/-- A counting loop inside a C string stops at a place all before which pass the test. -/
theorem countWhile_string (test : UInt8 → Bool) {start : Nat}
    (inside : start ≤ (cString text).length) :
    ∃ count, countWhile test (text ++ [0]) (cString text).length start = .ok count ∧
      start + count ≤ (cString text).length ∧
      ∀ i byte, start ≤ i → i < start + count → (cString text)[i]? = some byte →
        test byte = true := by
  have le := (cString_front text).length_le
  have isPrefix : (text ++ [0]).take (cString text).length = cString text :=
    (List.prefix_iff_eq_take.mp (cString_front text)).symm
  have counted := countWhile_eq test le start
  rw [isPrefix] at counted
  refine ⟨_, counted, ?_, ?_⟩
  · have short := (List.takeWhile_prefix (l := (cString text).drop start) test).length_le
    rw [List.length_drop] at short
    omega
  intro i byte low high isByte
  have isPrefix' := List.takeWhile_prefix (l := (cString text).drop start) test
  have inTake : i - start < (((cString text).drop start).takeWhile test).length := by omega
  have same := isPrefix'.getElem inTake
  have isThere : ((cString text).drop start)[i - start]? = some byte := by
    rw [List.getElem?_drop, Nat.add_sub_cancel' low, isByte]
  rw [List.getElem?_eq_some_iff] at isThere
  obtain ⟨_, isThere⟩ := isThere
  have passes := List.mem_takeWhile_imp (List.getElem_mem inTake)
  rwa [same, isThere] at passes

end

/-! ## The host and the port -/

theorem portDigits_bounded {text : List UInt8} {finish : Nat} (inside : finish ≤ text.length)
    (i : Nat) {value : Nat} (small : value ≤ 65535) :
    ∃ result, portDigits text finish i value = .ok result ∧
      ∀ port, result = some port → port ≤ 65535 := by
  induction steps : finish - i generalizing i value with
  | zero =>
    unfold portDigits
    rw [if_neg (by omega)]
    refine ⟨_, rfl, ?_⟩
    intro port isPort
    cases isPort
    exact small
  | succ steps ih =>
    have inBlock : i < text.length := by omega
    unfold portDigits
    rw [if_pos (by omega), byteAt_eq inBlock, Checked.ok_bind]
    split
    · exact ⟨none, rfl, fun port absent => by cases absent⟩
    · dsimp only
      split
      · exact ⟨none, rfl, fun port absent => by cases absent⟩
      · exact ih (i + 1) (by omega) (by omega)

theorem httpParsePort_range {text : List UInt8} {finish : Nat} (inside : finish ≤ text.length)
    (start : Nat) :
    ∃ result, httpParsePort text start finish = .ok result ∧
      ∀ port, result = some port → 1 ≤ port ∧ port ≤ 65535 := by
  obtain ⟨result, isResult, bounded⟩ := portDigits_bounded inside start (Nat.zero_le 65535)
  unfold httpParsePort
  split
  · exact ⟨none, rfl, fun port absent => by cases absent⟩
  rw [isResult, Checked.ok_bind]
  cases result with
  | none => exact ⟨none, rfl, fun port absent => by cases absent⟩
  | some value =>
    have small := bounded value rfl
    dsimp only
    split
    · exact ⟨none, rfl, fun port absent => by cases absent⟩
    · refine ⟨_, rfl, ?_⟩
      intro port isPort
      cases isPort
      omega

theorem closeBracket_inside {text : List UInt8} {finish : Nat} (inside : finish ≤ text.length)
    (i : Nat) (found : Option Nat) :
    ∃ result, closeBracket text finish i found = .ok result ∧
      ∀ close, result = some close → found = some close ∨ i ≤ close ∧ close < finish := by
  induction steps : finish - i generalizing i found with
  | zero =>
    unfold closeBracket
    rw [if_neg (by omega)]
    exact ⟨found, rfl, fun close isClose => Or.inl isClose⟩
  | succ steps ih =>
    have inBlock : i < text.length := by omega
    unfold closeBracket
    rw [if_pos (by omega), byteAt_eq inBlock, Checked.ok_bind]
    obtain ⟨result, isResult, isInside⟩ := ih (i + 1)
      (if text[i] = ']'.toUInt8 ∧ found = none then some i else found) (by omega)
    refine ⟨result, isResult, ?_⟩
    intro close isClose
    cases isInside close isClose with
    | inl earlier =>
      split at earlier
      · cases earlier
        exact Or.inr ⟨Nat.le_refl _, by omega⟩
      · exact Or.inl earlier
    | inr later => exact Or.inr ⟨by omega, later.2⟩

theorem scanColons_inside {text : List UInt8} {finish : Nat} (inside : finish ≤ text.length)
    (i colon count : Nat) :
    ∃ result, scanColons text finish i colon count = .ok result ∧
      ∀ colon' count', result = some (colon', count') →
        (colon' = colon ∧ count' = count) ∨ i ≤ colon' ∧ colon' < finish := by
  induction steps : finish - i generalizing i colon count with
  | zero =>
    unfold scanColons
    rw [if_neg (by omega)]
    refine ⟨_, rfl, ?_⟩
    intro colon' count' same
    cases same
    exact Or.inl ⟨rfl, rfl⟩
  | succ steps ih =>
    have inBlock : i < text.length := by omega
    unfold scanColons
    rw [if_pos (by omega), byteAt_eq inBlock, Checked.ok_bind]
    split
    · exact ⟨none, rfl, fun colon' count' absent => by cases absent⟩
    split
    · obtain ⟨result, isResult, isInside⟩ := ih (i + 1) i (count + 1) (by omega)
      refine ⟨result, isResult, ?_⟩
      intro colon' count' same
      have found := isInside colon' count' same
      omega
    · obtain ⟨result, isResult, isInside⟩ := ih (i + 1) colon count (by omega)
      refine ⟨result, isResult, ?_⟩
      intro colon' count' same
      have found := isInside colon' count' same
      omega

def IsPort (port : Nat) : Prop := 1 ≤ port ∧ port ≤ 65535

/-- The host of a URL is cut out of the authority of its text. -/
structure HostFrom (text : List UInt8) (start finish : Nat) (url : CHttpUrl) : Prop where
  cut : ∃ first last, start ≤ first ∧ first ≤ last ∧ last ≤ finish ∧
    url.host = some (slice (cString text) first last ++ [0])
  port : IsPort url.port

section

variable {text : List UInt8} {start finish : Nat} {url : CHttpUrl} (less : start < finish)
  (inside : finish ≤ (cString text).length) (isPort : IsPort url.port)

include less inside isPort

omit less in
theorem bracketHost_from :
    ∃ found url', bracketHost (text ++ [0]) start finish url = .ok (found, url') ∧
      (found = true → HostFrom text start finish url') := by
  have le := (cString_front text).length_le
  have inBlock : finish ≤ (text ++ [0]).length := by omega
  obtain ⟨result, isResult, isInside⟩ := closeBracket_inside inBlock (start + 1) none
  unfold bracketHost
  rw [isResult, Checked.ok_bind]
  cases result with
  | none => exact ⟨false, url, rfl, fun absent => by cases absent⟩
  | some close =>
    have range : start + 1 ≤ close ∧ close < finish := by
      cases isInside close rfl with
      | inl absent => cases absent
      | inr range => exact range
    dsimp only
    rw [httpSlice_string range.1 (by omega), Checked.ok_bind]
    have cut : ∃ first last, start ≤ first ∧ first ≤ last ∧ last ≤ finish ∧
        some (slice (cString text) (start + 1) close ++ [0]) =
          some (slice (cString text) first last ++ [0]) :=
      ⟨start + 1, close, by omega, range.1, by omega, rfl⟩
    split
    · next more =>
      rw [byteAt_eq (show close + 1 < (text ++ [0]).length by omega), Checked.ok_bind]
      split
      · exact ⟨false, {}, rfl, fun absent => by cases absent⟩
      · obtain ⟨port, isParsed, range⟩ := httpParsePort_range inBlock (close + 2)
        rw [isParsed, Checked.ok_bind]
        cases port with
        | none => exact ⟨false, {}, rfl, fun absent => by cases absent⟩
        | some port => exact ⟨true, _, rfl, fun _ => ⟨cut, range port rfl⟩⟩
    · exact ⟨true, _, rfl, fun _ => ⟨cut, isPort⟩⟩

theorem plainHost_from :
    ∃ found url', plainHost (text ++ [0]) start finish url = .ok (found, url') ∧
      (found = true → HostFrom text start finish url') := by
  have le := (cString_front text).length_le
  have inBlock : finish ≤ (text ++ [0]).length := by omega
  obtain ⟨result, isResult, isInside⟩ := scanColons_inside inBlock start 0 0
  unfold plainHost
  rw [isResult, Checked.ok_bind]
  cases result with
  | none => exact ⟨false, {}, rfl, fun absent => by cases absent⟩
  | some result =>
    obtain ⟨colon, count⟩ := result
    have found := isInside colon count rfl
    dsimp only
    split
    · exact ⟨false, {}, rfl, fun absent => by cases absent⟩
    split
    · rw [httpSlice_string (by omega) (by omega), Checked.ok_bind]
      obtain ⟨port, isParsed, range⟩ := httpParsePort_range inBlock (colon + 1)
      rw [isParsed, Checked.ok_bind]
      cases port with
      | none => exact ⟨false, {}, rfl, fun absent => by cases absent⟩
      | some port =>
        refine ⟨true, _, rfl, fun _ => ⟨?_, range port rfl⟩⟩
        exact ⟨start, colon, Nat.le_refl _, by omega, by omega, rfl⟩
    · rw [httpSlice_string (by omega) inside, Checked.ok_bind]
      refine ⟨true, _, rfl, fun _ => ⟨?_, isPort⟩⟩
      exact ⟨start, finish, Nat.le_refl _, by omega, Nat.le_refl _, rfl⟩

theorem parseHost_from :
    ∃ found url', parseHost (text ++ [0]) start finish url = .ok (found, url') ∧
      (found = true → HostFrom text start finish url') := by
  have le := (cString_front text).length_le
  unfold parseHost
  rw [byteAt_eq (show start < (text ++ [0]).length by omega), Checked.ok_bind]
  split
  · exact bracketHost_from inside isPort
  · exact plainHost_from less inside isPort

end

theorem httpHostIsSafe_eq (host : List UInt8) :
    httpHostIsSafe (some (host ++ [0])) =
      .ok (decide (cString host ≠ []) && (cString host).all isHostByte) := by
  obtain ⟨byte, isByte, first⟩ := firstByte host
  have all : allBefore isNul isHostByte (host ++ [0]) =
      .ok ((cString host).all isHostByte) := allBefore_eq host isNul_zero []
  unfold httpHostIsSafe
  dsimp only
  rw [isByte, Checked.ok_bind]
  by_cases zero : byte = 0
  · rw [if_pos zero, List.head?_eq_none_iff] at first
    rw [first, zero]
    rfl
  · have nonempty : cString host ≠ [] := by
      intro empty
      rw [empty, if_neg zero] at first
      cases first
    rw [if_neg (by simpa [isNul] using zero), decide_eq_true nonempty, Bool.true_and]
    exact all

/-! ## The target -/

/-- The target of a URL: the default, or what follows the authority, with the path in front
when that is a query. -/
inductive TargetFrom (text : List UInt8) (finish : Nat) : List UInt8 → Prop where
  | root : TargetFrom text finish (literal "/")
  | query (fragment : Nat) (inside : finish ≤ fragment ∧ fragment ≤ (cString text).length) :
      TargetFrom text finish (literal "/" ++ slice (cString text) finish fragment)
  | path (fragment : Nat) (inside : finish ≤ fragment ∧ fragment ≤ (cString text).length) :
      TargetFrom text finish (slice (cString text) finish fragment)

theorem TargetFrom.nonzero {text target : List UInt8} {finish : Nat}
    (from' : TargetFrom text finish target) : ∀ byte ∈ target, byte ≠ 0 := by
  have slash : ∀ byte ∈ literal "/", byte ≠ 0 := by
    intro byte member
    rw [show literal "/" = [47] from rfl, List.mem_singleton] at member
    rw [member]
    decide
  cases from' with
  | root => exact slash
  | query fragment inside =>
    intro byte member
    cases List.mem_append.mp member with
    | inl isSlash => exact slash byte isSlash
    | inr later => exact slice_nonzero later
  | path fragment inside => exact fun byte member => slice_nonzero member

theorem targetOf_from {text : List UInt8} {finish fragment : Nat} (le : finish ≤ fragment)
    (inside : fragment ≤ (cString text).length) :
    ∃ target, targetOf (text ++ [0]) finish fragment = .ok target ∧
      (target = none ∨
        ∃ bytes, target = some (bytes ++ [0]) ∧ TargetFrom text finish bytes) := by
  have le' := (cString_front text).length_le
  have isSlice := httpSlice_string le inside
  unfold targetOf
  split
  · exact ⟨_, rfl, Or.inr ⟨_, rfl, .root⟩⟩
  rw [byteAt_eq (show finish < (text ++ [0]).length by omega), Checked.ok_bind]
  split
  · split
    · exact ⟨none, rfl, Or.inl rfl⟩
    · rw [isSlice]
      refine ⟨_, rfl, Or.inr ⟨_, ?_, .query fragment ⟨le, inside⟩⟩⟩
      rw [Option.map_some, List.append_assoc]
  · exact ⟨_, isSlice, Or.inr ⟨_, rfl, .path fragment ⟨le, inside⟩⟩⟩

theorem parseTarget_from {text : List UInt8} {finish : Nat}
    (inside : finish ≤ (cString text).length) (url : CHttpUrl) :
    ∃ accepted url', parseTarget (text ++ [0]) (cString text).length finish url =
        .ok (accepted, url') ∧
      (accepted = true → ∃ target, url' = { url with target := some (target ++ [0]) } ∧
        TargetFrom text finish target ∧ target.head? = some '/'.toUInt8 ∧ IsPlain target) := by
  obtain ⟨count, isCount, le, _⟩ := countWhile_string (!isFragmentByte ·) inside
  obtain ⟨target, isTarget, from'⟩ := @targetOf_from text finish (finish + count) (by omega) le
  unfold parseTarget
  rw [isCount, Checked.ok_bind]
  dsimp only
  rw [isTarget, Checked.ok_bind]
  cases from' with
  | inl absent =>
    rw [absent]
    exact ⟨false, {}, rfl, fun absent => by cases absent⟩
  | inr present =>
    obtain ⟨bytes, isBytes, from'⟩ := present
    rw [isBytes, httpTargetIsSafe_eq, Checked.ok_bind, cString_self from'.nonzero]
    split
    next safe =>
      rw [Bool.and_eq_true, decide_eq_true_iff, List.all_eq_true] at safe
      refine ⟨true, _, rfl, fun _ => ⟨bytes, rfl, from', safe.1, ?_⟩⟩
      intro byte member
      exact (isPlain_of_safe byte).2 (safe.2 byte member)
    · exact ⟨false, {}, rfl, fun absent => by cases absent⟩

/-! ## Accepted URLs -/

/-- The host of an accepted URL: not empty, and none of its bytes separates anything in a
request. -/
def IsHost (host : List UInt8) : Prop :=
  host ≠ [] ∧ IsPlain host ∧ '/'.toUInt8 ∉ host ∧ '@'.toUInt8 ∉ host

structure SafeUrl (text : List UInt8) (url : CHttpUrl) : Prop where
  host : ∃ first last, first ≤ last ∧ last ≤ (cString text).length ∧
    url.host = some (slice (cString text) first last ++ [0]) ∧
    IsHost (slice (cString text) first last)
  port : IsPort url.port
  target : ∃ finish target, finish ≤ (cString text).length ∧ url.target = some (target ++ [0]) ∧
    TargetFrom text finish target ∧ target.head? = some '/'.toUInt8 ∧ IsPlain target

theorem isHostByte_plain (byte : UInt8) :
    isHostByte byte = true → 32 < byte ∧ byte ≠ 127 ∧ byte ≠ '@'.toUInt8 := by
  revert byte
  apply Text.byte_cases
  decide +kernel

theorem parseAuthority_safe {text : List UInt8} {start : Nat}
    (inside : start ≤ (cString text).length) {url : CHttpUrl} (isPort : IsPort url.port) :
    ∃ accepted url', parseAuthority (text ++ [0]) start url = .ok (accepted, url') ∧
      (accepted = true → SafeUrl text url') := by
  obtain ⟨count, isCount, le, authority⟩ := countWhile_string isAuthorityByte inside
  unfold parseAuthority
  rw [strLen_eq, Checked.ok_bind, isCount, Checked.ok_bind]
  dsimp only
  split
  · exact ⟨false, url, rfl, fun absent => by cases absent⟩
  next some' =>
    obtain ⟨found, url', isParsed, isHost⟩ :=
      @parseHost_from text start (start + count) url (by omega) le isPort
    rw [isParsed, Checked.ok_bind]
    cases found with
    | false => exact ⟨false, url', rfl, fun absent => by cases absent⟩
    | true =>
      obtain ⟨first, last, low, order, high, isCut⟩ := (isHost rfl).cut
      have isString := cString_self fun byte member =>
        @slice_nonzero text first last byte member
      dsimp only
      rw [if_neg (by decide), isCut, httpHostIsSafe_eq, Checked.ok_bind, isString]
      split
      next safe =>
        rw [Bool.and_eq_true, decide_eq_true_iff, List.all_eq_true] at safe
        obtain ⟨accepted, url'', isTarget, isSafe⟩ := parseTarget_from le url'
        refine ⟨accepted, url'', isTarget, ?_⟩
        intro isAccepted
        obtain ⟨target, isUrl, from', leads, plain⟩ := isSafe isAccepted
        rw [isUrl]
        refine ⟨⟨first, last, order, by omega, isCut, safe.1, ?_, ?_, ?_⟩, (isHost rfl).port,
          ⟨start + count, target, le, rfl, from', leads, plain⟩⟩
        · intro byte member
          have bounds := isHostByte_plain byte (safe.2 byte member)
          exact ⟨bounds.1, bounds.2.1⟩
        · intro member
          obtain ⟨i, above, below, isByte⟩ := mem_slice member
          have passes := authority i _ (by omega) (by omega) isByte
          exact absurd passes (by decide)
        · intro member
          exact (isHostByte_plain _ (safe.2 _ member)).2.2 rfl
      · exact ⟨false, {}, rfl, fun absent => by cases absent⟩

theorem startsWith_long {text start : List UInt8}
    (starts : httpStartsWithInsensitive (text ++ [0]) start = .ok true) :
    start.length ≤ (cString text).length := by
  induction start generalizing text with
  | nil => exact Nat.zero_le _
  | cons expected start ih =>
    cases text with
    | nil => cases starts
    | cons byte text =>
      rw [List.cons_append, httpStartsWithInsensitive] at starts
      split at starts
      · cases starts
      next same =>
        rw [not_or] at same
        have longer := ih starts
        unfold cString at longer ⊢
        rw [List.takeWhile_cons_of_pos (by simpa [isNul] using same.1), List.length_cons,
          List.length_cons]
        exact Nat.succ_le_succ longer

theorem httpUrlParse_safe (text : List UInt8) :
    ∃ accepted url, httpUrlParse (some (text ++ [0])) = .ok (accepted, url) ∧
      (accepted = true → SafeUrl text url) := by
  have secure : 0 ∉ (literal "https://").map httpAsciiLower := by decide
  have open' : 0 ∉ (literal "http://").map httpAsciiLower := by decide
  have isSecure := httpStartsWithInsensitive_eq text secure
  have isOpen := httpStartsWithInsensitive_eq text open'
  unfold httpUrlParse
  dsimp only
  rw [isSecure, Checked.ok_bind]
  split
  next starts =>
    rw [starts] at isSecure
    exact parseAuthority_safe (startsWith_long isSecure) ⟨by decide, by decide⟩
  · rw [isOpen, Checked.ok_bind]
    split
    next starts =>
      rw [starts] at isOpen
      exact parseAuthority_safe (startsWith_long isOpen) ⟨by decide, by decide⟩
    · exact ⟨false, {}, rfl, fun absent => by cases absent⟩

/-! ## What is sent -/

theorem isPlain_of_all {text : List UInt8}
    (all : text.all (fun byte => 32 < byte ∧ byte ≠ 127) = true) : IsPlain text := by
  intro byte member
  exact of_decide_eq_true (List.all_eq_true.mp all byte member)

theorem IsPlain.append {text more : List UInt8} (plain : IsPlain text) (plain' : IsPlain more) :
    IsPlain (text ++ more) := by
  intro byte member
  cases List.mem_append.mp member with
  | inl first => exact plain byte first
  | inr second => exact plain' byte second

theorem decimal_plain (value : Nat) : IsPlain (decimal value) := by
  intro byte member
  obtain ⟨digit, isDigit, rfl⟩ := List.mem_map.mp member
  have range := Nat.isDigit_of_mem_toDigits (by decide) (by decide) isDigit
  unfold Char.isDigit at range
  rw [Bool.and_eq_true, decide_eq_true_iff, decide_eq_true_iff] at range
  have low : 48 ≤ digit.toNat := UInt32.le_iff_toNat_le.mp range.1
  have high : digit.toNat ≤ 57 := UInt32.le_iff_toNat_le.mp range.2
  have isByte : digit.toUInt8.toNat = digit.toNat := by
    have wraps : digit.toUInt8.toNat = digit.toNat % 256 := UInt32.toNat_toUInt8 digit.val
    rw [wraps, Nat.mod_eq_of_lt (by omega)]
  constructor
  · rw [UInt8.lt_iff_toNat_lt, isByte]
    exact Nat.lt_of_lt_of_le (by decide) low
  · intro same
    rw [same] at isByte
    have delete : (127 : UInt8).toNat = 127 := rfl
    omega

theorem SafeUrl.hostHeader_plain {text : List UInt8} {url : CHttpUrl} (safe : SafeUrl text url) :
    IsPlain (httpHostHeader url) := by
  obtain ⟨first, last, _, _, isHost, _, plain, _⟩ := safe.host
  have isPrinted : printed url.host = slice (cString text) first last := by
    rw [isHost]
    exact printed_string fun byte member => slice_nonzero member
  have opening : IsPlain (literal "[") := isPlain_of_all (by decide)
  have closing : IsPlain (literal "]") := isPlain_of_all (by decide)
  have both : IsPlain (literal "]:") := isPlain_of_all (by decide)
  have colon : IsPlain (literal ":") := isPlain_of_all (by decide)
  unfold httpHostHeader
  rw [isPrinted]
  dsimp only
  split
  · split
    · exact (opening.append plain).append closing
    · exact ((opening.append plain).append both).append (decimal_plain _)
  · split
    · exact plain
    · exact (plain.append colon).append (decimal_plain _)

/-- The parser reads nothing outside of its text, and an accepted URL has a host, a port and
a target out of which no blank and no control character gets into a request: the request
line and the Host header have only the blanks and line ends that they are built with. -/
theorem httpUrlParse_injects_nothing :
    (∀ text : List UInt8, ∃ accepted url,
      httpUrlParse (some (text ++ [0])) = .ok (accepted, url)) ∧
    ∀ (text : List UInt8) (url : CHttpUrl), httpUrlParse (some (text ++ [0])) = .ok (true, url) →
      SafeUrl text url ∧ ∀ method, ∃ target hostHeader, IsPlain target ∧ IsPlain hostHeader ∧
        requestHead method url = method ++ literal " " ++ target ++
          literal " HTTP/1.1\r\nHost: " ++ hostHeader ++ literal "\r\n" := by
  constructor
  · intro text
    obtain ⟨accepted, url, isParsed, _⟩ := httpUrlParse_safe text
    exact ⟨accepted, url, isParsed⟩
  · intro text url isAccepted
    obtain ⟨accepted, url', isParsed, isSafe⟩ := httpUrlParse_safe text
    rw [isAccepted] at isParsed
    cases isParsed
    have safe := isSafe rfl
    obtain ⟨finish, target, _, isTarget, from', _, plain⟩ := safe.target
    refine ⟨safe, ?_⟩
    intro method
    refine ⟨target, httpHostHeader url, plain, safe.hostHeader_plain, ?_⟩
    unfold requestHead
    rw [isTarget, printed_string from'.nonzero]
    simp only [List.append_assoc]
    rfl

/-- A URL with a port, a query and a fragment. -/
theorem httpUrlParse_injects_nothing_port :
    SafeUrl (literal "http://host:81?q#f")
      { host := some (literal "host" ++ [0]), port := 81, target := some (literal "/?q" ++ [0]) } :=
  (httpUrlParse_injects_nothing.2 (literal "http://host:81?q#f") _ (by decide +kernel)).1

end Aholyc.Http
