import Mathlib.Data.List.TakeWhile
import Mathlib.Tactic.Common
import Aholyc.Http.Fields

/-!
# Segmentation

However a stream is cut into received blocks, the reader's outcome is the one it has for
the whole stream. What is received in two blocks leaves the reader where one block would,
and a decision that was reached stands whatever comes in behind it.
-/

namespace Aholyc.Http

open Aholyc.Lib

/-! ## Complete requests -/

/-- The body that starts `rest`, with the chunks up to the size line of zero. -/
def IsBody (rest : List UInt8) (chunked : Bool) (contentLength : Nat)
    (body : List UInt8) : Prop :=
  if chunked = true then
    ∃ (chunks : List Chunk) (last : SizeLine) (after : List UInt8), last.size = 0 ∧
      rest = encodedChunks chunks ++ (last.text ++ after) ∧ body = contents chunks
  else
    contentLength ≤ rest.length ∧ body = rest.take contentLength

structure IsRequest (stream : List UInt8) (request : CHttpRequest) : Prop where
  headers : ∃ finish, HeaderEnd stream finish ∧ request.headersLength = finish - 2 ∧
    request.headers = some (stream.take (finish - 2) ++ [0])
  line : ∃ method target, IsRequestLine (stream.take request.headersLength) method target ∧
    request.method = some (method ++ [0]) ∧ request.target = some (target ++ [0])
  body : ∃ chunked contentLength body,
    Framing (stream.take request.headersLength) chunked contentLength ∧
    IsBody (stream.drop (request.headersLength + 2)) chunked contentLength body ∧
    request.body = some (body ++ [0]) ∧ request.bodyLength = body.length
  error : request.error = none

/-! ## The head -/

def HeadRead (headers : List UInt8) (request : CHttpRequest) : Head → Prop
  | .stop request' => request'.error.isSome = true
  | .read request' chunked contentLength =>
    (∃ method target, IsRequestLine headers method target ∧
      request' = { request with method := some (method ++ [0]), target := some (target ++ [0]) }) ∧
    Framing headers chunked contentLength

variable {request : CHttpRequest} {headers raw : List UInt8} {chunked : Bool}
  {contentLength finish : Nat} {reading : Reading}

theorem httpRequestHeader_eq {lines : List (List UInt8)} (isLines : IsLines headers lines)
    (isHeaders : request.headers = some (headers ++ [0]))
    (length : request.headersLength = headers.length) (name : String) :
    httpRequestHeader request name = .ok ((headerValue lines name).map (· ++ [0])) := by
  unfold httpRequestHeader
  rw [isHeaders, length]
  exact httpHeaderFind_eq isLines name

theorem readHead_reads {lines : List (List UInt8)} (isLines : IsLines headers lines)
    (isHeaders : request.headers = some (headers ++ [0]))
    (length : request.headersLength = headers.length) :
    ∃ head, readHead request = .ok head ∧ HeadRead headers request head := by
  obtain ⟨ok, request', parsed, sound⟩ := httpParseRequestLine_reads isHeaders length
  cases ok with
  | false =>
    unfold readHead
    rw [parsed, Checked.ok_bind]
    exact ⟨_, rfl, rfl⟩
  | true =>
    obtain ⟨method, target, line⟩ := sound rfl
    have accepts := httpParseRequestLine_accepts line isHeaders length
    have readValue (name : String) : httpRequestHeader
        { request with method := some (method ++ [0]), target := some (target ++ [0]) } name =
          .ok ((headerValue lines name).map (· ++ [0])) :=
      httpRequestHeader_eq isLines isHeaders length name
    have someToken : literal "chunked" ≠ [] := by decide
    obtain ⟨chunked, isChunked, chunked_iff⟩ :=
      httpValueHasToken_eq (headerValue lines "Transfer-Encoding") someToken
    unfold readHead
    rw [accepts, Checked.ok_bind]
    dsimp only
    rw [if_neg (fun differs => differs rfl), readValue, Checked.ok_bind, readValue,
      Checked.ok_bind, isChunked, Checked.ok_bind]
    cases chunked with
    | true =>
      rw [if_neg (fun counted => counted.1 rfl)]
      exact ⟨_, rfl, ⟨method, target, line, rfl⟩, lines, isLines, chunked_iff, rfl⟩
    | false =>
      cases isText : headerValue lines "Content-Length" with
      | none =>
        rw [if_neg (fun counted => by cases counted.2)]
        refine ⟨_, rfl, ⟨method, target, line, rfl⟩, lines, isLines, chunked_iff, ?_⟩
        rw [if_neg Bool.false_ne_true, isText]
      | some text =>
        obtain ⟨value, isValue, isNumber⟩ := httpParseDecimal_eq text
        rw [if_pos ⟨Bool.false_ne_true, rfl⟩, Option.map_some, isValue, Checked.ok_bind]
        cases value with
        | none => exact ⟨_, rfl, rfl⟩
        | some contentLength =>
          refine ⟨_, rfl, ⟨method, target, line, rfl⟩, lines, isLines, chunked_iff, ?_⟩
          rw [if_neg Bool.false_ne_true, isText]
          exact (isNumber contentLength).mp rfl

theorem readHead_accepts (request : CHttpRequest) {method target : List UInt8}
    (isHeaders : request.headers = some (headers ++ [0]))
    (length : request.headersLength = headers.length) (line : IsRequestLine headers method target)
    (framing : Framing headers chunked contentLength) :
    readHead request = .ok (.read
      { request with method := some (method ++ [0]), target := some (target ++ [0]) }
      chunked contentLength) := by
  obtain ⟨lines, isLines, framed_iff, framed⟩ := framing
  have readValue (name : String) : httpRequestHeader
      { request with method := some (method ++ [0]), target := some (target ++ [0]) } name =
        .ok ((headerValue lines name).map (· ++ [0])) :=
    httpRequestHeader_eq isLines isHeaders length name
  have someToken : literal "chunked" ≠ [] := by decide
  obtain ⟨has, isChunked, chunked_iff⟩ :=
    httpValueHasToken_eq (headerValue lines "Transfer-Encoding") someToken
  have same : has = chunked := Bool.eq_iff_iff.mpr (chunked_iff.trans framed_iff.symm)
  unfold readHead
  rw [httpParseRequestLine_accepts line isHeaders length, Checked.ok_bind]
  dsimp only
  rw [if_neg (fun differs => differs rfl), readValue, Checked.ok_bind, readValue,
    Checked.ok_bind, isChunked, Checked.ok_bind, same]
  cases chunked with
  | true =>
    rw [if_pos rfl] at framed
    rw [if_neg (fun counted => counted.1 rfl), framed]
  | false =>
    rw [if_neg Bool.false_ne_true] at framed
    cases isText : headerValue lines "Content-Length" with
    | none =>
      rw [isText] at framed
      rw [if_neg (fun counted => by cases counted.2), framed]
    | some text =>
      rw [isText] at framed
      obtain ⟨value, isValue, isNumber⟩ := httpParseDecimal_eq text
      rw [(isNumber contentLength).mpr framed] at isValue
      rw [if_pos ⟨Bool.false_ne_true, rfl⟩, Option.map_some, isValue, Checked.ok_bind]

/-! ## The whole stream -/

def start : Reading := { request := {} }

def whole (stream : List UInt8) : Checked (Bool × CHttpRequest) := do
  match ← receive start stream with
  | .stop request => .ok (false, request)
  | .more reading =>
    match ← framed reading with
    | some request => .ok (true, request)
    | none => .ok (false, reading.request.fail "incomplete HTTP request")

def headRequest (stream : List UInt8) (finish : Nat) : CHttpRequest :=
  { headers := some (stream.take (finish - 2) ++ [0]), headersLength := finish - 2 }

theorem receive_noHead (noHead : ∀ finish, ¬HeaderEnd raw finish) :
    receive start raw = .ok (.more { request := {}, raw := raw }) := by
  obtain ⟨found, isFound, found_iff⟩ := httpFindHeaderEnd_eq raw
  have none : found = none := by
    cases found with
    | none => rfl
    | some finish => exact absurd ((found_iff finish).mp rfl) (noHead finish)
  rw [none] at isFound
  unfold receive start
  dsimp only
  rw [List.nil_append, if_neg (by decide), isFound, Checked.ok_bind]

theorem receive_head (headerEnd : HeaderEnd raw finish) {head : Head}
    (isHead : readHead (headRequest raw finish) = .ok head) :
    receive start raw = .ok (head.received raw finish) := by
  obtain ⟨found, isFound, found_iff⟩ := httpFindHeaderEnd_eq raw
  have bounds := headerEnd.bounds
  rw [(found_iff finish).mpr headerEnd] at isFound
  unfold receive start
  dsimp only
  rw [List.nil_append, if_neg (by decide), isFound, Checked.ok_bind]
  dsimp only
  rw [httpSlice_eq _ (Nat.zero_le _) (by omega), Checked.ok_bind, List.drop_zero, Nat.sub_zero]
  unfold headRequest at isHead
  rw [isHead, Checked.ok_bind]

theorem headRequest_append (headerEnd : HeaderEnd raw finish) (more : List UInt8) :
    headRequest (raw ++ more) finish = headRequest raw finish := by
  have bounds := headerEnd.bounds
  unfold headRequest
  rw [List.take_append_of_le_length (by omega)]

/-- A header block is made of lines. -/
theorem headerEnd_lines (headerEnd : HeaderEnd raw finish) :
    ∃ lines, IsLines (raw.take (finish - 2)) lines := by
  obtain ⟨i, isFinish, ends, _⟩ := headerEnd
  obtain ⟨rest, isRest⟩ := ends
  have split : raw.take (finish - 2) = raw.take i ++ crlf := by
    have inside : finish - 2 = i + 2 := by omega
    rw [inside, List.take_add, ← isRest]
    rfl
  obtain ⟨line, lines, isLines⟩ := lines_exist (raw.take i)
  rw [split]
  exact ⟨line :: lines, isLines⟩

theorem head_reads (headerEnd : HeaderEnd raw finish) :
    ∃ head, readHead (headRequest raw finish) = .ok head ∧
      HeadRead (raw.take (finish - 2)) (headRequest raw finish) head := by
  have bounds := headerEnd.bounds
  obtain ⟨lines, isLines⟩ := headerEnd_lines headerEnd
  apply readHead_reads isLines
  · rfl
  · rw [List.length_take]
    show finish - 2 = _
    omega

theorem head_cases (raw : List UInt8) :
    (∀ finish, ¬HeaderEnd raw finish) ∨ ∃ finish, HeaderEnd raw finish := by
  by_cases head : ∃ finish, HeaderEnd raw finish
  · exact .inr head
  · exact .inl fun finish headerEnd => head ⟨finish, headerEnd⟩

theorem receive_stop (stops : receive start raw = .ok (.stop request)) (more : List UInt8) :
    receive start (raw ++ more) = .ok (.stop request) := by
  cases head_cases raw with
  | inl noHead =>
    rw [receive_noHead noHead] at stops
    cases stops
  | inr head =>
    obtain ⟨finish, headerEnd⟩ := head
    obtain ⟨head, isHead, _⟩ := head_reads headerEnd
    have whole := receive_head headerEnd isHead
    rw [← headRequest_append headerEnd more] at isHead
    rw [receive_head (headerEnd.append more) isHead]
    rw [whole] at stops
    cases head with
    | stop request' => exact stops
    | read request' chunked contentLength => cases stops

theorem receive_append (received : receive start raw = .ok (.more reading)) (more : List UInt8) :
    receive reading more = receive start (raw ++ more) := by
  cases head_cases raw with
  | inl noHead =>
    rw [receive_noHead noHead] at received
    cases received
    rfl
  | inr head =>
    obtain ⟨finish, headerEnd⟩ := head
    obtain ⟨head, isHead, read⟩ := head_reads headerEnd
    have whole := receive_head headerEnd isHead
    rw [← headRequest_append headerEnd more] at isHead
    rw [receive_head (headerEnd.append more) isHead]
    rw [whole] at received
    cases head with
    | stop request' => cases received
    | read request' chunked contentLength =>
      obtain ⟨⟨method, target, _, isRequest⟩, _⟩ := read
      cases received
      rw [isRequest]
      rfl

/-! ## The body -/

/-- The body that is there behind a header block, and its length. -/
def bodyAt (raw : List UInt8) (finish : Nat) (chunked : Bool) (contentLength : Nat) :
    Option (List UInt8 × Nat) :=
  if chunked = true then httpDecodeChunked (raw.drop finish)
  else if finish + contentLength ≤ raw.length then
    some ((raw.drop finish).take contentLength ++ [0], contentLength)
  else none

def CHttpRequest.withBody (request : CHttpRequest) (body : List UInt8 × Nat) : CHttpRequest :=
  { request with body := some body.1, bodyLength := body.2 }

theorem framed_eq (request : CHttpRequest) (raw : List UInt8) (finish : Nat) (chunked : Bool)
    (contentLength : Nat) :
    framed
        { request := request, raw := raw, headerFinish := some finish, chunked := chunked,
          contentLength := contentLength } =
      .ok ((bodyAt raw finish chunked contentLength).map request.withBody) := by
  have size : raw.length - finish = (raw.drop finish).length := List.length_drop.symm
  unfold framed bodyAt
  dsimp only
  cases chunked with
  | true =>
    rw [if_pos rfl, if_pos rfl, size, decodeChunked_eq, Checked.ok_bind]
    cases httpDecodeChunked (raw.drop finish) with
    | none => rfl
    | some body => rfl
  | false =>
    rw [if_neg Bool.false_ne_true, if_neg Bool.false_ne_true]
    by_cases enough : finish + contentLength ≤ raw.length
    · have sum : ((finish : Int) + contentLength).toNat = finish + contentLength := by omega
      rw [if_pos (by omega), if_pos enough, sum, httpSlice_eq _ (by omega) enough,
        Checked.ok_bind, Nat.add_sub_cancel_left]
      rfl
    · rw [if_neg (by omega), if_neg enough]
      rfl

theorem bodyAt_append {body : List UInt8 × Nat} (inside : finish ≤ raw.length)
    (isBody : bodyAt raw finish chunked contentLength = some body) (more : List UInt8) :
    bodyAt (raw ++ more) finish chunked contentLength = some body := by
  unfold bodyAt at isBody ⊢
  rw [List.drop_append_of_le_length inside]
  split at isBody
  next isTrue =>
    rw [if_pos isTrue]
    exact httpDecodeChunked_append isBody more
  next isFalse =>
    rw [if_neg isFalse]
    split at isBody
    next enough =>
      rw [if_pos (by rw [List.length_append]; omega), List.take_append_of_le_length (by
        rw [List.length_drop]
        omega)]
      exact isBody
    · cases isBody

/-! ## The loop -/

/-- A reader that has taken over `raw`, with what it makes of it. -/
theorem framed_whole (received : receive start raw = .ok (.more reading)) :
    reading.raw = raw ∧ ∃ result, framed reading = .ok result ∧
      (∀ request, result = some request → ∀ more, whole (raw ++ more) = .ok (true, request)) ∧
      (result = none →
        whole raw = .ok (false, reading.request.fail "incomplete HTTP request")) := by
  cases head_cases raw with
  | inl noHead =>
    have isWhole : whole raw = whole raw := rfl
    conv_rhs at isWhole => unfold whole
    rw [received, Checked.ok_bind] at isWhole
    rw [receive_noHead noHead] at received
    cases received
    refine ⟨rfl, none, rfl, ?_, ?_⟩
    · intro request absent
      cases absent
    · intro _
      exact isWhole
  | inr head =>
    obtain ⟨finish, headerEnd⟩ := head
    obtain ⟨head, isHead, read⟩ := head_reads headerEnd
    have bounds := headerEnd.bounds
    have isReceived := receive_head headerEnd isHead
    rw [isReceived] at received
    cases head with
    | stop request' => cases received
    | read request' chunked contentLength =>
      cases received
      have frames := framed_eq request' raw finish chunked contentLength
      refine ⟨rfl, _, frames, ?_, ?_⟩
      · intro request isRequest more
        obtain ⟨body, isBody, withBody⟩ := Option.map_eq_some_iff.mp isRequest
        rw [← headRequest_append headerEnd more] at isHead
        unfold whole
        rw [receive_head (headerEnd.append more) isHead, Checked.ok_bind]
        dsimp only [Head.received]
        rw [framed_eq request' _ _ chunked contentLength,
          bodyAt_append bounds.2 isBody more, Checked.ok_bind, Option.map_some, withBody]
      · intro none
        unfold whole
        rw [isReceived, Checked.ok_bind]
        dsimp only [Head.received]
        rw [frames, none, Checked.ok_bind]

theorem whole_stop (stops : receive start raw = .ok (.stop request)) (more : List UInt8) :
    whole (raw ++ more) = .ok (false, request) := by
  unfold whole
  rw [receive_stop stops more, Checked.ok_bind]

theorem receive_reads (stream : List UInt8) :
    ∃ received, receive start stream = .ok received := by
  cases head_cases stream with
  | inl noHead => exact ⟨_, receive_noHead noHead⟩
  | inr head =>
    obtain ⟨finish, headerEnd⟩ := head
    obtain ⟨head, isHead, _⟩ := head_reads headerEnd
    exact ⟨_, receive_head headerEnd isHead⟩

/-- The outcomes of the loop from a reader that has taken over `reading.raw`: that of the whole
stream, or a refusal for the limit on a message. -/
theorem readLoop_whole (received : receive start reading.raw = .ok (.more reading))
    (chunks : List (List UInt8)) (nonempty : ∀ chunk ∈ chunks, chunk ≠ []) :
    readLoop reading chunks = whole (reading.raw ++ chunks.flatten) ∨
      httpMaxMessage < (reading.raw ++ chunks.flatten).length ∧
        ∃ request, readLoop reading chunks = .ok (false, request) := by
  induction chunks generalizing reading with
  | nil =>
    obtain ⟨_, result, isResult, accepts, waits⟩ := framed_whole received
    left
    unfold readLoop
    rw [isResult, Checked.ok_bind]
    cases result with
    | some request => exact (accepts request rfl []).symm
    | none =>
      rw [List.flatten_nil, List.append_nil]
      exact (waits rfl).symm
  | cons chunk chunks ih =>
    obtain ⟨_, result, isResult, accepts, waits⟩ := framed_whole received
    have stream : reading.raw ++ (chunk :: chunks).flatten =
        reading.raw ++ chunk ++ chunks.flatten := by
      rw [List.flatten_cons, List.append_assoc]
    unfold readLoop
    rw [isResult, Checked.ok_bind]
    cases result with
    | some request => exact .inl (accepts request rfl _).symm
    | none =>
      dsimp only
      rw [if_neg (nonempty chunk (List.mem_cons_self ..)), stream]
      by_cases large : reading.raw.length + chunk.length > httpMaxMessage
      · rw [if_pos large]
        refine .inr ⟨?_, _, rfl⟩
        rw [List.length_append, List.length_append]
        omega
      · obtain ⟨next, isNext⟩ := receive_reads (reading.raw ++ chunk)
        rw [if_neg large, receive_append received chunk, isNext, Checked.ok_bind]
        cases next with
        | stop request => exact .inl (whole_stop isNext _).symm
        | more reading' =>
          have isRaw := (framed_whole isNext).1
          rw [← isRaw] at isNext ⊢
          exact ih isNext fun chunk member => nonempty chunk (List.mem_cons_of_mem _ member)

theorem readLoop_accepts (received : receive start reading.raw = .ok (.more reading))
    {chunks : List (List UInt8)} (accepted : readLoop reading chunks = .ok (true, request))
    (small : reading.raw.length ≤ httpMaxMessage) :
    whole ((reading.raw ++ chunks.flatten).take httpMaxMessage) = .ok (true, request) := by
  have front : ∀ more : List UInt8, (reading.raw ++ more).take httpMaxMessage =
      reading.raw ++ more.take (httpMaxMessage - reading.raw.length) := by
    intro more
    rw [List.take_append, List.take_of_length_le small]
  induction chunks generalizing reading with
  | nil =>
    obtain ⟨_, result, isResult, accepts, _⟩ := framed_whole received
    unfold readLoop at accepted
    rw [isResult, Checked.ok_bind] at accepted
    cases result with
    | none => cases accepted
    | some request' =>
      cases accepted
      rw [front]
      exact accepts request rfl _
  | cons chunk chunks ih =>
    obtain ⟨_, result, isResult, accepts, _⟩ := framed_whole received
    unfold readLoop at accepted
    rw [isResult, Checked.ok_bind] at accepted
    cases result with
    | some request' =>
      cases accepted
      rw [front]
      exact accepts request rfl _
    | none =>
      dsimp only at accepted
      split at accepted
      · cases accepted
      split at accepted
      · cases accepted
      next fits =>
        obtain ⟨next, isNext⟩ := receive_reads (reading.raw ++ chunk)
        rw [receive_append received chunk, isNext, Checked.ok_bind] at accepted
        cases next with
        | stop request' => cases accepted
        | more reading' =>
          have isRaw := (framed_whole isNext).1
          have small' : reading'.raw.length ≤ httpMaxMessage := by
            rw [isRaw, List.length_append]
            omega
          have stream : reading.raw ++ (chunk :: chunks).flatten =
              reading'.raw ++ chunks.flatten := by
            rw [isRaw, List.flatten_cons, List.append_assoc]
          rw [← isRaw] at isNext
          rw [stream]
          apply ih isNext accepted small'
          intro more
          rw [List.take_append, List.take_of_length_le small']

/-! ## Complete requests are what is accepted -/

theorem contents_length_le (chunks : List Chunk) :
    (contents chunks).length ≤ (encodedChunks chunks).length := by
  induction chunks with
  | nil => exact Nat.le_refl _
  | cons chunk chunks ih =>
    have encoded := congrArg List.length (chunk.encoded_append (encodedChunks chunks))
    unfold contents encodedChunks at ih ⊢
    rw [List.flatMap_cons, List.flatMap_cons]
    simp only [List.length_append, List.length_cons, encodedChunks] at encoded ih ⊢
    omega

theorem IsBody.length_le {rest body : List UInt8} (isBody : IsBody rest chunked contentLength body) :
    body.length ≤ rest.length := by
  unfold IsBody at isBody
  split at isBody
  · obtain ⟨chunks, last, after, _, isRest, isContents⟩ := isBody
    have le := contents_length_le chunks
    rw [isRest, isContents, List.length_append]
    omega
  · rw [isBody.2, List.length_take]
    exact Nat.min_le_right _ _

theorem bodyAt_isBody {body : List UInt8 × Nat} (inside : finish ≤ raw.length)
    (isBody : bodyAt raw finish chunked contentLength = some body) :
    ∃ bytes, IsBody (raw.drop finish) chunked contentLength bytes ∧
      body = (bytes ++ [0], bytes.length) := by
  unfold bodyAt at isBody
  split at isBody
  next isTrue =>
    obtain ⟨result, loop, isResult⟩ := Option.bind_eq_some_iff.mp isBody
    obtain ⟨chunks, last, after, zero, isRest, isContents, _⟩ :=
      chunkLoop_some loop (Nat.zero_le _)
    cases isResult
    refine ⟨result, ?_, rfl⟩
    unfold IsBody
    rw [if_pos isTrue]
    exact ⟨chunks, last, after, zero, isRest, isContents⟩
  next isFalse =>
    split at isBody
    next enough =>
      cases isBody
      have some : contentLength ≤ (raw.drop finish).length := by
        rw [List.length_drop]
        omega
      refine ⟨(raw.drop finish).take contentLength, ?_, ?_⟩
      · unfold IsBody
        rw [if_neg isFalse]
        exact ⟨some, rfl⟩
      · rw [List.length_take, Nat.min_eq_left some]
    · cases isBody

theorem isBody_bodyAt {bytes : List UInt8} (inside : finish ≤ raw.length)
    (small : raw.length ≤ httpMaxMessage)
    (isBody : IsBody (raw.drop finish) chunked contentLength bytes) :
    bodyAt raw finish chunked contentLength = some (bytes ++ [0], bytes.length) := by
  have le := isBody.length_le
  rw [List.length_drop] at le
  unfold IsBody at isBody
  unfold bodyAt
  split at isBody
  next isTrue =>
    obtain ⟨chunks, last, after, zero, isRest, isContents⟩ := isBody
    rw [if_pos isTrue, isRest, decodeChunked_chunks chunks last zero, ← isContents,
      if_pos (by omega)]
  next isFalse =>
    obtain ⟨enough, isBytes⟩ := isBody
    have length : bytes.length = contentLength := by
      rw [isBytes, List.length_take, Nat.min_eq_left enough]
    rw [if_neg isFalse, if_pos (by omega), ← isBytes, length]

theorem whole_sound {stream : List UInt8} (accepted : whole stream = .ok (true, request)) :
    IsRequest stream request := by
  unfold whole at accepted
  cases head_cases stream with
  | inl noHead =>
    rw [receive_noHead noHead] at accepted
    cases accepted
  | inr head =>
    obtain ⟨finish, headerEnd⟩ := head
    obtain ⟨head, isHead, read⟩ := head_reads headerEnd
    have bounds := headerEnd.bounds
    rw [receive_head headerEnd isHead, Checked.ok_bind] at accepted
    cases head with
    | stop request' => cases accepted
    | read request' chunked contentLength =>
      dsimp only [Head.received] at accepted
      rw [framed_eq request' _ _ chunked contentLength, Checked.ok_bind] at accepted
      cases isBody : bodyAt stream finish chunked contentLength with
      | none =>
        rw [isBody] at accepted
        cases accepted
      | some body =>
        rw [isBody] at accepted
        obtain ⟨⟨method, target, line, isRequest⟩, framing⟩ := read
        obtain ⟨bytes, body, isBytes⟩ := bodyAt_isBody bounds.2 isBody
        have behind : finish - 2 + 2 = finish := by omega
        cases accepted
        rw [isRequest]
        refine ⟨⟨finish, headerEnd, rfl, rfl⟩, ⟨method, target, line, rfl, rfl⟩,
          ⟨chunked, contentLength, bytes, framing, ?_, ?_, ?_⟩, rfl⟩
        · show IsBody (stream.drop (finish - 2 + 2)) chunked contentLength bytes
          rw [behind]
          exact body
        · rw [isBytes]
          rfl
        · rw [isBytes]
          rfl

theorem whole_complete {stream : List UInt8} (complete : IsRequest stream request)
    (small : stream.length ≤ httpMaxMessage) : whole stream = .ok (true, request) := by
  obtain ⟨⟨finish, headerEnd, length, headers⟩, ⟨method, target, line, isMethod, isTarget⟩,
    ⟨chunked, contentLength, bytes, framing, body, isBytes, bodyLength⟩, error⟩ := complete
  have bounds := headerEnd.bounds
  have behind : finish - 2 + 2 = finish := by omega
  rw [length] at line framing body
  rw [behind] at body
  have isRequest : request = CHttpRequest.withBody
      { headRequest stream finish with
        method := some (method ++ [0]), target := some (target ++ [0]) }
      (bytes ++ [0], bytes.length) := by
    cases request
    dsimp only at length headers isMethod isTarget isBytes bodyLength error
    rw [length, headers, isMethod, isTarget, isBytes, bodyLength, error]
    rfl
  have isHead := readHead_accepts (headRequest stream finish) rfl (by
    rw [List.length_take]
    show finish - 2 = _
    omega) line framing
  unfold whole
  rw [receive_head headerEnd isHead, Checked.ok_bind]
  dsimp only [Head.received]
  rw [framed_eq _ _ _ chunked contentLength, isBody_bodyAt bounds.2 small body,
    Checked.ok_bind, Option.map_some, ← isRequest]

theorem receive_empty : receive start start.raw = .ok (.more start) := by
  apply receive_noHead
  intro finish headerEnd
  have bounds := headerEnd.bounds
  have none : start.raw.length = 0 := rfl
  omega

theorem whole_reads (stream : List UInt8) :
    ∃ accepted request, whole stream = .ok (accepted, request) := by
  obtain ⟨received, isReceived⟩ := receive_reads stream
  unfold whole
  rw [isReceived, Checked.ok_bind]
  cases received with
  | stop request => exact ⟨false, request, rfl⟩
  | more reading =>
    obtain ⟨_, result, isResult, _⟩ := framed_whole isReceived
    dsimp only
    rw [isResult, Checked.ok_bind]
    cases result with
    | none => exact ⟨_, _, rfl⟩
    | some request => exact ⟨_, _, rfl⟩

/-! ## Every split -/

/-- Received blocks: none is empty or longer than the buffer of `HttpReadRequest`. -/
def IsSplit (chunks : List (List UInt8)) (stream : List UInt8) : Prop :=
  chunks.flatten = stream ∧ ∀ chunk ∈ chunks, chunk ≠ [] ∧ chunk.length ≤ 8192

def IsPlain (text : List UInt8) : Prop := ∀ byte ∈ text, 32 < byte ∧ byte ≠ 127

theorem isPlain_of_safe (byte : UInt8) :
    (isMethodByte byte → 32 < byte ∧ byte ≠ 127) ∧
      (isTargetByte byte → 32 < byte ∧ byte ≠ 127) := by
  revert byte
  apply Text.byte_cases
  decide +kernel

theorem IsRequestLine.plain {method target : List UInt8}
    (line : IsRequestLine headers method target) :
    IsPlain (cString method) ∧ IsPlain (cString target) :=
  ⟨fun byte member => (isPlain_of_safe byte).1 (line.method_safe.2 byte member),
    fun byte member => (isPlain_of_safe byte).2 (line.target_safe.2 byte member)⟩

/-- A stream within the limit on a message has one outcome, and that is a complete request if
it has one; a longer one is accepted only for a request within the limit. Nothing but the
bytes received is read. -/
theorem readRequest_segments :
    (∀ stream : List UInt8, stream.length ≤ httpMaxMessage →
      ∃ accepted request,
        (∀ chunks, IsSplit chunks stream → httpReadRequest chunks = .ok (accepted, request)) ∧
        (accepted = true → IsRequest stream request) ∧
        ∀ request', IsRequest stream request' → accepted = true ∧ request = request') ∧
    (∀ (stream : List UInt8) (chunks : List (List UInt8)), IsSplit chunks stream →
      ∃ accepted request, httpReadRequest chunks = .ok (accepted, request) ∧
        (accepted = true →
          IsRequest stream request ∧ IsRequest (stream.take httpMaxMessage) request)) ∧
    ∀ (stream : List UInt8) (request : CHttpRequest), IsRequest stream request →
      ∃ method target, request.method = some (method ++ [0]) ∧
        request.target = some (target ++ [0]) ∧
        IsPlain (cString method) ∧ IsPlain (cString target) := by
  refine ⟨?_, ?_, ?_⟩
  · intro stream small
    obtain ⟨accepted, request, isWhole⟩ := whole_reads stream
    refine ⟨accepted, request, ?_, ?_, ?_⟩
    · intro chunks split
      obtain ⟨isStream, blocks⟩ := split
      have nonempty : ∀ chunk ∈ chunks, chunk ≠ [] := fun chunk member => (blocks chunk member).1
      have raw : start.raw ++ chunks.flatten = stream := isStream
      cases readLoop_whole receive_empty chunks nonempty with
      | inl same =>
        rw [raw, isWhole] at same
        exact same
      | inr beyond =>
        rw [raw] at beyond
        omega
    · intro isTrue
      rw [isTrue] at isWhole
      exact whole_sound isWhole
    · intro request' complete
      rw [whole_complete complete small] at isWhole
      cases isWhole
      exact ⟨rfl, rfl⟩
  · intro stream chunks split
    obtain ⟨isStream, blocks⟩ := split
    have nonempty : ∀ chunk ∈ chunks, chunk ≠ [] := fun chunk member => (blocks chunk member).1
    have raw : start.raw ++ chunks.flatten = stream := isStream
    have outcome := readLoop_whole receive_empty chunks nonempty
    rw [raw] at outcome
    cases outcome with
    | inl same =>
      obtain ⟨accepted, request, isWhole⟩ := whole_reads stream
      rw [isWhole] at same
      refine ⟨accepted, request, same, ?_⟩
      intro isTrue
      rw [isTrue] at isWhole same
      have cut := readLoop_accepts receive_empty same (Nat.zero_le _)
      rw [raw] at cut
      exact ⟨whole_sound isWhole, whole_sound cut⟩
    | inr beyond =>
      obtain ⟨_, request, rejected⟩ := beyond
      refine ⟨false, request, rejected, ?_⟩
      intro isTrue
      cases isTrue
  · intro stream request complete
    obtain ⟨method, target, line, isMethod, isTarget⟩ := complete.line
    exact ⟨method, target, isMethod, isTarget, line.plain⟩

/-- A header block that announces a body as long as a message may be. -/
def longHead : List UInt8 :=
  literal "POST / HTTP/1.0\r\nContent-Length: 268435456\r\n\r\n"

/-- A complete request beyond the limit is rejected. -/
theorem readRequest_limited :
    ¬∀ (stream : List UInt8) (request : CHttpRequest) (chunks : List (List UInt8)),
      IsRequest stream request → IsSplit chunks stream →
        httpReadRequest chunks = .ok (true, request) := by
  intro always
  obtain ⟨bytes, isLength⟩ : ∃ bytes : List UInt8, bytes.length = httpMaxMessage :=
    ⟨List.replicate _ 0, List.length_replicate⟩
  have small : longHead.length = 46 := by decide +kernel
  have headerEnd : HeaderEnd longHead 46 := ⟨42, rfl, by decide +kernel, by decide +kernel⟩
  let request : CHttpRequest := { headRequest longHead 46 with
    method := some (literal "POST" ++ [0]), target := some (literal "/" ++ [0]),
    body := some (bytes ++ [0]), bodyLength := bytes.length }
  have front : (longHead ++ bytes).take 44 = longHead.take 44 := by
    rw [List.take_append_of_le_length (by omega)]
  have complete : IsRequest (longHead ++ bytes) request := by
    refine ⟨⟨46, headerEnd.append bytes, rfl, ?_⟩, ⟨literal "POST", literal "/", ?_, rfl, rfl⟩,
      ⟨false, httpMaxMessage, bytes, ?_, ?_, rfl, rfl⟩, rfl⟩
    · rw [front]
      rfl
    · show IsRequestLine ((longHead ++ bytes).take 44) (literal "POST") (literal "/")
      rw [front]
      refine ⟨⟨(longHead.take 44).drop 7, ?_, ?_⟩, ?_, ?_, ?_, ?_⟩
      · decide +kernel
      · decide +kernel
      · decide +kernel
      · decide +kernel
      · decide +kernel
      · decide +kernel
    · show Framing ((longHead ++ bytes).take 44) false httpMaxMessage
      rw [front]
      refine ⟨[literal "POST / HTTP/1.0", literal "Content-Length: 268435456"],
        ⟨by decide +kernel, by decide +kernel⟩, ?_, ?_⟩
      · have encoding : headerValue [literal "POST / HTTP/1.0",
            literal "Content-Length: 268435456"] "Transfer-Encoding" = none := by decide +kernel
        rw [encoding]
        simp
      · have length : headerValue [literal "POST / HTTP/1.0",
            literal "Content-Length: 268435456"] "Content-Length" = some (literal "268435456") := by
          decide +kernel
        rw [if_neg Bool.false_ne_true, length]
        exact ⟨by decide +kernel, by decide +kernel, by decide +kernel, by decide +kernel⟩
    · have rest : (longHead ++ bytes).drop (44 + 2) = bytes := by
        rw [List.drop_append_of_le_length (by omega), List.drop_of_length_le (by omega),
          List.nil_append]
      show IsBody ((longHead ++ bytes).drop (44 + 2)) false httpMaxMessage bytes
      rw [rest]
      unfold IsBody
      rw [if_neg Bool.false_ne_true, List.take_of_length_le (by omega)]
      exact ⟨by omega, rfl⟩
  have split : IsSplit ((longHead ++ bytes).map fun byte => [byte]) (longHead ++ bytes) := by
    constructor
    · rw [← List.flatMap_def, List.flatMap_singleton']
    · intro chunk member
      obtain ⟨byte, _, isByte⟩ := List.mem_map.mp member
      rw [← isByte]
      exact ⟨List.cons_ne_nil _ _, by rw [List.length_singleton]; decide⟩
  have accepted := readLoop_accepts receive_empty (always _ request _ complete split)
    (Nat.zero_le _)
  obtain ⟨chunked, contentLength, body, _, isBody, _, bodyLength⟩ := (whole_sound accepted).body
  have le := isBody.length_le
  have isBytes : bytes.length = body.length := bodyLength
  rw [split.1] at le
  have headers : request.headersLength = 44 := rfl
  rw [List.length_drop, List.length_take, headers] at le
  have positive : 0 < httpMaxMessage := by decide
  omega

end Aholyc.Http
