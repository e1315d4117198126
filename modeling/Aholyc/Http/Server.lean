import Mathlib.Data.List.TakeWhile
import Mathlib.Tactic.Common
import Aholyc.Http.Chunked

/-!
# Reading a request

`HttpReadRequest` of lib/http/server.hc. What the socket hands over is a list of received
blocks, after which it is at its end. The outcome is that of the whole stream read at once,
up to the limit on a message.
-/

namespace Aholyc.Http

open Aholyc.Lib

structure CHttpRequest where
  method : Pointer := none
  target : Pointer := none
  headers : Pointer := none
  headersLength : Nat := 0
  body : Pointer := none
  bodyLength : Nat := 0
  error : Option String := none
  deriving DecidableEq

def httpRequestHeader (request : CHttpRequest) (name : String) : Checked Pointer :=
  httpHeaderFind request.headers request.headersLength (literal name)

def isWord (byte : UInt8) : Bool := byte != ' '.toUInt8 && byte != '\r'.toUInt8

def httpParseRequestLine (request : CHttpRequest) : Checked (Bool × CHttpRequest) :=
  match request.headers with
  | none => .error .outside
  | some line => do
    let methodEnd ← countWhile isWord line request.headersLength 0
    if methodEnd = 0 ∨ methodEnd ≥ request.headersLength then
      .ok (false, request)
    else if (← byteAt line methodEnd) ≠ ' '.toUInt8 then
      .ok (false, request)
    else
      let targetStart := methodEnd + 1
      let targetEnd := targetStart + (← countWhile isWord line request.headersLength targetStart)
      if targetEnd = targetStart ∨ targetEnd ≥ request.headersLength then
        .ok (false, request)
      else if (← byteAt line targetEnd) ≠ ' '.toUInt8 then
        .ok (false, request)
      else if ¬(← httpStartsWithInsensitive (line.drop (targetEnd + 1)) (literal "HTTP/1.")) then
        .ok (false, request)
      else
        let method ← httpSlice (some line) 0 methodEnd
        let target ← httpSlice (some line) targetStart targetEnd
        let safe ← andAlso (httpMethodIsSafe method) (httpTargetIsSafe target)
        .ok (safe, { request with method := method, target := target })

def CHttpRequest.fail (request : CHttpRequest) (error : String) : CHttpRequest :=
  { request with error := some error }

inductive Head
  | stop (request : CHttpRequest)
  | read (request : CHttpRequest) (chunked : Bool) (contentLength : Nat)

/-- What the loop does with a header block once `request` has it. -/
def readHead (request : CHttpRequest) : Checked Head := do
  let (ok, request) ← httpParseRequestLine request
  if ¬ok then
    .ok (.stop (request.fail "malformed HTTP request line"))
  else
    let transferEncoding ← httpRequestHeader request "Transfer-Encoding"
    let contentLengthText ← httpRequestHeader request "Content-Length"
    let chunked ← httpValueHasToken transferEncoding (literal "chunked")
    if ¬chunked ∧ contentLengthText.isSome then
      match ← httpParseDecimal contentLengthText with
      | none => .ok (.stop (request.fail "invalid Content-Length"))
      | some contentLength => .ok (.read request chunked contentLength)
    else
      .ok (.read request chunked 0)

/-- The variables of the loop; `headerFinish` is `none` for -1. -/
structure Reading where
  request : CHttpRequest
  raw : List UInt8 := []
  headerFinish : Option Nat := none
  chunked : Bool := false
  contentLength : Int := -1

inductive Received
  | stop (request : CHttpRequest)
  | more (reading : Reading)

def Head.received (raw : List UInt8) (headerFinish : Nat) : Head → Received
  | .stop request => .stop request
  | .read request chunked contentLength => .more
    { request := request, raw := raw, headerFinish := some headerFinish, chunked := chunked,
      contentLength := contentLength }

def framed (reading : Reading) : Checked (Option CHttpRequest) :=
  match reading.headerFinish with
  | none => .ok none
  | some headerFinish =>
    if reading.chunked then do
      match ← decodeChunked (reading.raw.drop headerFinish)
          (reading.raw.length - headerFinish) with
      | none => .ok none
      | some (decoded, decodedSize) =>
        .ok (some { reading.request with body := some decoded, bodyLength := decodedSize })
    else if (reading.raw.length : Int) - headerFinish ≥ reading.contentLength then do
      let body ← httpSlice (some reading.raw) headerFinish
        (headerFinish + reading.contentLength).toNat
      .ok (some { reading.request with body := body, bodyLength := reading.contentLength.toNat })
    else
      .ok none

def receive (reading : Reading) (chunk : List UInt8) : Checked Received := do
  let raw := reading.raw ++ chunk
  let headerFinish ←
    if reading.headerFinish.isSome then .ok reading.headerFinish
    else httpFindHeaderEnd raw raw.length 0
  match headerFinish, reading.request.headers with
  | some finish, none =>
    let headersLength := finish - 2
    let headers ← httpSlice (some raw) 0 headersLength
    let head ← readHead { reading.request with headers := headers, headersLength := headersLength }
    .ok (head.received raw finish)
  | headerFinish, _ => .ok (.more { reading with raw := raw, headerFinish := headerFinish })

/-- `while (TRUE)`, with the blocks that are still to come. -/
def readLoop (reading : Reading) : List (List UInt8) → Checked (Bool × CHttpRequest)
  | [] => do
    match ← framed reading with
    | some request => .ok (true, request)
    | none => .ok (false, reading.request.fail "incomplete HTTP request")
  | chunk :: chunks => do
    match ← framed reading with
    | some request => .ok (true, request)
    | none =>
      if chunk = [] then
        .ok (false, reading.request.fail "incomplete HTTP request")
      else if reading.raw.length + chunk.length > httpMaxMessage then
        .ok (false, reading.request.fail "HTTP request exceeds limit")
      else
        match ← receive reading chunk with
        | .stop request => .ok (false, request)
        | .more reading => readLoop reading chunks

def httpReadRequest (chunks : List (List UInt8)) : Checked (Bool × CHttpRequest) :=
  readLoop { request := {} } chunks

/-! ## The request line -/

def hasVersion (version : List UInt8) : Bool :=
  (version.take 7).map httpAsciiLower == (literal "HTTP/1.").map httpAsciiLower

/-- A request line that starts a header block, with the bytes up to a NUL for the C strings. -/
structure IsRequestLine (headers method target : List UInt8) : Prop where
  line : ∃ version, headers = method ++ ' '.toUInt8 :: (target ++ ' '.toUInt8 :: version) ∧
    hasVersion version = true
  method_word : ∀ byte ∈ method, isWord byte = true
  target_word : ∀ byte ∈ target, isWord byte = true
  method_safe : cString method ≠ [] ∧ ∀ byte ∈ cString method, isMethodByte byte = true
  target_safe : (cString target).head? = some '/'.toUInt8 ∧
    ∀ byte ∈ cString target, isTargetByte byte = true

theorem countWord (bytes : List UInt8) (i : Nat) :
    countWhile isWord (bytes ++ [0]) bytes.length i =
      .ok ((bytes.drop i).takeWhile isWord).length := by
  have inside : bytes.length ≤ (bytes ++ [0]).length := by
    rw [List.length_append]
    exact Nat.le_add_right _ _
  rw [countWhile_eq isWord inside, List.take_left]

theorem takeWord {word : List UInt8} (isWords : ∀ byte ∈ word, isWord byte = true)
    (rest : List UInt8) : (word ++ ' '.toUInt8 :: rest).takeWhile isWord = word := by
  rw [List.takeWhile_append_of_pos isWords, List.takeWhile_cons_of_neg (by decide),
    List.append_nil]

/-- A word ends at the end of the bytes, or in front of a byte that belongs to none. -/
theorem word_ends (bytes : List UInt8) : (bytes.takeWhile isWord).length ≥ bytes.length ∨
    ∃ word byte rest, bytes = word ++ byte :: rest ∧ bytes.takeWhile isWord = word ∧
      ∀ byte ∈ word, isWord byte = true := by
  have whole := List.takeWhile_append_dropWhile (p := isWord) (l := bytes)
  cases left : bytes.dropWhile isWord with
  | nil =>
    rw [left, List.append_nil] at whole
    rw [whole]
    exact .inl (Nat.le_refl _)
  | cons byte rest =>
    rw [left] at whole
    exact .inr ⟨_, byte, rest, whole.symm, rfl, fun byte member => List.mem_takeWhile_imp member⟩

section

variable {request : CHttpRequest} {method target version : List UInt8}

theorem httpParseRequestLine_words
    (line : request.headers =
      some (method ++ ' '.toUInt8 :: (target ++ ' '.toUInt8 :: version) ++ [0]))
    (length : request.headersLength =
      (method ++ ' '.toUInt8 :: (target ++ ' '.toUInt8 :: version)).length)
    (method_word : ∀ byte ∈ method, isWord byte = true)
    (target_word : ∀ byte ∈ target, isWord byte = true)
    (method_some : method ≠ []) (target_some : target ≠ []) :
    httpParseRequestLine request = .ok (
      if hasVersion version then
        (decide (cString method ≠ []) && (cString method).all isMethodByte &&
          (decide ((cString target).head? = some '/'.toUInt8) &&
            (cString target).all isTargetByte),
          { request with method := some (method ++ [0]), target := some (target ++ [0]) })
      else (false, request)) := by
  have methodLength := List.length_pos_iff.mpr method_some
  have targetLength := List.length_pos_iff.mpr target_some
  have total : request.headersLength = method.length + target.length + version.length + 2 := by
    rw [length]
    simp only [List.length_append, List.length_cons]
    omega
  let words := method ++ ' '.toUInt8 :: (target ++ ' '.toUInt8 :: version)
  have front : words ++ [0] =
      method ++ ' '.toUInt8 :: (target ++ ' '.toUInt8 :: (version ++ [0])) := by
    simp only [words, List.append_assoc, List.cons_append]
  have behind : words ++ [0] =
      (method ++ ' '.toUInt8 :: target) ++ ' '.toUInt8 :: (version ++ [0]) := by
    simp only [words, List.append_assoc, List.cons_append]
  have behindLength : (method ++ ' '.toUInt8 :: target).length =
      method.length + 1 + target.length := by
    simp only [List.length_append, List.length_cons]
    omega
  have afterMethod : words.drop (method.length + 1) = target ++ ' '.toUInt8 :: version := by
    rw [← List.drop_drop, List.drop_left]
    rfl
  have atMethod : byteAt (words ++ [0]) method.length = .ok ' '.toUInt8 := by
    rw [front]
    exact byteAt_append _ _ _
  have atTarget : byteAt (words ++ [0]) (method.length + 1 + target.length) =
      .ok ' '.toUInt8 := by
    rw [behind, ← behindLength]
    exact byteAt_append _ _ _
  have afterTarget : (words ++ [0]).drop (method.length + 1 + target.length + 1) =
      version ++ [0] := by
    rw [behind, ← behindLength, ← List.drop_drop, List.drop_left]
    rfl
  have methodSlice : httpSlice (some (words ++ [0])) 0 method.length =
      .ok (some (method ++ [0])) := by
    rw [front, httpSlice_eq _ (Nat.zero_le _) (by rw [List.length_append]; omega),
      List.drop_zero, Nat.sub_zero, List.take_left]
  have targetSlice : httpSlice (some (words ++ [0])) (method.length + 1)
      (method.length + 1 + target.length) = .ok (some (target ++ [0])) := by
    rw [httpSlice_eq _ (Nat.le_add_right _ _) (by
        rw [behind, List.length_append, behindLength]
        omega), front, ← List.drop_drop, List.drop_left, Nat.add_sub_cancel_left]
    rw [List.drop_one, List.tail_cons, List.take_left]
  have plain : 0 ∉ (literal "HTTP/1.").map httpAsciiLower := by decide
  have starts : httpStartsWithInsensitive (version ++ [0]) (literal "HTTP/1.") =
      .ok (hasVersion version) := httpStartsWithInsensitive_eq version plain
  unfold httpParseRequestLine
  rw [line]
  dsimp only
  rw [length, countWord, List.drop_zero, takeWord method_word, Checked.ok_bind, ← length,
    if_neg (by omega), atMethod, Checked.ok_bind, if_neg (fun differs => differs rfl)]
  rw [length, countWord, afterMethod, takeWord target_word, Checked.ok_bind, ← length,
    if_neg (by omega), atTarget, Checked.ok_bind, if_neg (fun differs => differs rfl), afterTarget,
    starts, Checked.ok_bind]
  by_cases isVersion : hasVersion version = true
  · rw [if_pos isVersion, if_neg (fun differs => differs isVersion), methodSlice, Checked.ok_bind,
      targetSlice, Checked.ok_bind, httpMethodIsSafe_eq, httpTargetIsSafe_eq, andAlso_eq,
      Checked.ok_bind]
  · rw [if_neg isVersion, if_pos isVersion]

variable {headers : List UInt8}

theorem IsRequestLine.nonempty (line : IsRequestLine headers method target) :
    method ≠ [] ∧ target ≠ [] := by
  constructor
  · intro empty
    rw [empty] at line
    exact line.method_safe.1 rfl
  · intro empty
    rw [empty] at line
    cases line.target_safe.1

theorem httpParseRequestLine_accepts (line : IsRequestLine headers method target)
    (isHeaders : request.headers = some (headers ++ [0]))
    (length : request.headersLength = headers.length) :
    httpParseRequestLine request = .ok
      (true, { request with method := some (method ++ [0]), target := some (target ++ [0]) }) := by
  obtain ⟨method_some, target_some⟩ := line.nonempty
  obtain ⟨version, isLine, isVersion⟩ := line.line
  rw [isLine] at isHeaders length
  rw [httpParseRequestLine_words isHeaders length line.method_word line.target_word method_some
    target_some, if_pos isVersion, decide_eq_true line.method_safe.1,
    decide_eq_true line.target_safe.1, List.all_eq_true.mpr line.method_safe.2,
    List.all_eq_true.mpr line.target_safe.2]
  rfl

/-- The parser reads nothing outside of a block, and accepts only request lines. -/
theorem httpParseRequestLine_reads (isHeaders : request.headers = some (headers ++ [0]))
    (length : request.headersLength = headers.length) :
    ∃ ok request', httpParseRequestLine request = .ok (ok, request') ∧
      (ok = true → ∃ method target, IsRequestLine headers method target) := by
  have rejected : (false = true → ∃ method target, IsRequestLine headers method target) := by
    intro isTrue
    cases isTrue
  have first := countWord headers 0
  rw [List.drop_zero] at first
  rcases word_ends headers with all | ⟨method, byte, rest, isLine, isMethod, method_word⟩
  · unfold httpParseRequestLine
    rw [isHeaders]
    dsimp only
    rw [length, first, Checked.ok_bind, if_pos (.inr all)]
    exact ⟨false, request, rfl, rejected⟩
  have atMethod : byteAt (headers ++ [0]) method.length = .ok byte := by
    rw [isLine, List.append_assoc, List.cons_append]
    exact byteAt_append _ _ _
  have afterMethod : headers.drop (method.length + 1) = rest := by
    rw [isLine, ← List.drop_drop, List.drop_left]
    rfl
  have second := countWord headers (method.length + 1)
  rw [isMethod] at first
  rw [afterMethod] at second
  by_cases none : method.length = 0 ∨ method.length ≥ headers.length
  · unfold httpParseRequestLine
    rw [isHeaders]
    dsimp only
    rw [length, first, Checked.ok_bind, if_pos none]
    exact ⟨false, request, rfl, rejected⟩
  by_cases blank : byte = ' '.toUInt8
  · rcases word_ends rest with all | ⟨target, byte', version, isRest, isTarget, target_word⟩
    · unfold httpParseRequestLine
      rw [isHeaders]
      dsimp only
      rw [length, first, Checked.ok_bind, if_neg none, atMethod, Checked.ok_bind,
        if_neg (fun differs => differs blank), second, Checked.ok_bind, if_pos]
      · exact ⟨false, request, rfl, rejected⟩
      · right
        rw [isLine, List.length_append, List.length_cons]
        omega
    rw [isTarget] at second
    have longer : headers.length = method.length + 1 + target.length + 1 + version.length := by
      rw [isLine, isRest]
      simp only [List.length_append, List.length_cons]
      omega
    have atTarget : byteAt (headers ++ [0]) (method.length + 1 + target.length) = .ok byte' := by
      have front : headers ++ [0] = (method ++ byte :: target) ++ byte' :: (version ++ [0]) := by
        rw [isLine, isRest]
        simp only [List.append_assoc, List.cons_append]
      have frontLength : (method ++ byte :: target).length =
          method.length + 1 + target.length := by
        simp only [List.length_append, List.length_cons]
        omega
      rw [front, ← frontLength]
      exact byteAt_append _ _ _
    by_cases same : target.length = 0
    · unfold httpParseRequestLine
      rw [isHeaders]
      dsimp only
      rw [length, first, Checked.ok_bind, if_neg none, atMethod, Checked.ok_bind,
        if_neg (fun differs => differs blank), second, Checked.ok_bind, if_pos (.inl (by omega))]
      exact ⟨false, request, rfl, rejected⟩
    by_cases blank' : byte' = ' '.toUInt8
    · rw [isRest, blank, blank'] at isLine
      rw [isLine] at isHeaders length
      have words := httpParseRequestLine_words isHeaders length method_word target_word
        (fun empty => none (.inl (List.length_eq_zero_iff.mpr empty)))
        (fun empty => same (List.length_eq_zero_iff.mpr empty))
      by_cases isVersion : hasVersion version = true
      · rw [if_pos isVersion] at words
        refine ⟨_, _, words, ?_⟩
        intro safe
        simp only [Bool.and_eq_true, decide_eq_true_eq, List.all_eq_true] at safe
        exact ⟨method, target, ⟨version, isLine, isVersion⟩, method_word, target_word, safe.1,
          safe.2⟩
      · rw [if_neg isVersion] at words
        exact ⟨false, request, words, rejected⟩
    · unfold httpParseRequestLine
      rw [isHeaders]
      dsimp only
      rw [length, first, Checked.ok_bind, if_neg none, atMethod, Checked.ok_bind,
        if_neg (fun differs => differs blank), second, Checked.ok_bind, if_neg (by omega), atTarget,
        Checked.ok_bind, if_pos blank']
      exact ⟨false, request, rfl, rejected⟩
  · unfold httpParseRequestLine
    rw [isHeaders]
    dsimp only
    rw [length, first, Checked.ok_bind, if_neg none, atMethod, Checked.ok_bind, if_pos blank]
    exact ⟨false, request, rfl, rejected⟩

end

end Aholyc.Http
