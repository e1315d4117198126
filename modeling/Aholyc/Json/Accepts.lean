import Aholyc.Json.Tokens

/-!
# What the decoder accepts

The scanner of values is sound (what it accepts is derivable, and the spans it
stores are those of the derivation), complete, and it ends. With white space
around a value this is the language of `jsonDecode`.
-/

namespace Aholyc.Json

open Aholyc.Lib.Scanner Aholyc.Text CJsonDecoder
open Computability

def keep (values : List CJsonValue) (decoder : CJsonDecoder) : CJsonDecoder :=
  { decoder with values := decoder.values ++ values }

@[simp] theorem keep_left (values : List CJsonValue) (decoder : CJsonDecoder) :
    (keep values decoder).left = decoder.left := rfl

@[simp] theorem keep_comments (values : List CJsonValue) (decoder : CJsonDecoder) :
    (keep values decoder).allowComments = decoder.allowComments := rfl

@[simp] theorem keep_offset (values : List CJsonValue) (decoder : CJsonDecoder) :
    (keep values decoder).offset = decoder.offset := rfl

@[simp] theorem keep_maxDepth (values : List CJsonValue) (decoder : CJsonDecoder) :
    (keep values decoder).maxDepth = decoder.maxDepth := rfl

@[simp] theorem skip_comments (count : Nat) (decoder : CJsonDecoder) :
    (skip count decoder).allowComments = decoder.allowComments := rfl

@[simp] theorem skip_offset (count : Nat) (decoder : CJsonDecoder) :
    (skip count decoder).offset = decoder.offset + count := rfl

@[simp] theorem skip_maxDepth (count : Nat) (decoder : CJsonDecoder) :
    (skip count decoder).maxDepth = decoder.maxDepth := rfl

theorem keep_nil (decoder : CJsonDecoder) : keep [] decoder = decoder := by
  simp [keep]

theorem keep_keep (first second : List CJsonValue) (decoder : CJsonDecoder) :
    keep second (keep first decoder) = keep (first ++ second) decoder := by
  simp [keep]

theorem skip_keep (count : Nat) (values : List CJsonValue) (decoder : CJsonDecoder) :
    skip count (keep values decoder) = keep values (skip count decoder) := rfl

theorem skip_skip (first second : Nat) (decoder : CJsonDecoder) :
    skip second (skip first decoder) = skip (first + second) decoder :=
  cursor.skip_skip first second decoder

def Reports (decoder : CJsonDecoder) (word : List UInt8) (values : List CJsonValue)
    (after : CJsonDecoder) : Prop :=
  word <+: decoder.left ∧ after = keep values (skip word.length decoder)

variable {decoder after : CJsonDecoder} {word rest text gap : List UInt8} {values : List CJsonValue}
  {ch : UInt8} {p : UInt8 → Bool} {part : Part} {nesting start fuel depth : Nat} {kind : Kind}
  {value loop : CJsonDecoder → Scan} {type : JsonType}

theorem Reports.of_reads (reads : cursor.Reads decoder word after) :
    Reports decoder word [] after := by
  obtain ⟨isPrefix, rfl⟩ := reads
  exact ⟨isPrefix, (keep_nil _).symm⟩

theorem Reports.left (reports : Reports decoder word values after) :
    decoder.left = word ++ after.left := by
  obtain ⟨⟨rest, eq⟩, rfl⟩ := reports
  rw [keep_left, ← eq]
  exact congrArg (word ++ ·) (cursor.left_of_skip eq.symm).symm

theorem Reports.append {mid : CJsonDecoder} {first second : List UInt8} {more : List CJsonValue}
    (one : Reports decoder first values mid) (two : Reports mid second more after) :
    Reports decoder (first ++ second) (values ++ more) after := by
  constructor
  · rw [one.left, List.prefix_append_right_inj]
    exact two.1
  · rw [two.2, one.2, skip_keep, keep_keep, skip_skip, List.length_append]

theorem Reports.comments (reports : Reports decoder word values after) :
    after.allowComments = decoder.allowComments := by
  rw [reports.2]
  rfl

theorem Reports.maxDepth (reports : Reports decoder word values after) :
    after.maxDepth = decoder.maxDepth := by
  rw [reports.2]
  rfl

theorem Reports.offset (reports : Reports decoder word values after) :
    after.offset = decoder.offset + word.length := by
  rw [reports.2]
  rfl

def room (decoder : CJsonDecoder) (depth : Nat) : Nat := (decoder.maxDepth - depth).toNat

/-! ## Soundness -/

theorem Skipped.space {comments : Bool} (skipped : Skipped comments decoder after)
    (more : after.left ≠ []) : ∃ gap ∈ space comments, Reports decoder gap [] after := by
  obtain ⟨gap, reads, inSpace | ⟨atEnd, _⟩⟩ := skipped
  · exact ⟨gap, inSpace, Reports.of_reads reads⟩
  · exact absurd atEnd more

theorem reports_one (text : decoder.left = ch :: rest) : Reports decoder [ch] [] (skip 1 decoder) :=
  Reports.of_reads ⟨⟨rest, text.symm⟩, rfl⟩

theorem nextIs_cons (present : nextIs p decoder = true) :
    ∃ ch rest, decoder.left = ch :: rest ∧ p ch = true := by
  unfold nextIs at present
  cases text : decoder.left with
  | nil => simp [text] at present
  | cons ch rest => exact ⟨ch, rest, rfl, by simpa [text] using present⟩

theorem append_mem_space {comments : Bool} {first second : List UInt8}
    (isSpace : first ∈ space comments) (isSpace' : second ∈ space comments) :
    first ++ second ∈ space comments := by
  have both := Language.append_mem_mul isSpace isSpace'
  rwa [space, kstar_mul_kstar] at both

/-- A scan of one item of the text, with white space in front of it. -/
def FindsItem (comments : Bool) (part : Part) (nesting : Nat) (decoder after : CJsonDecoder) :
    Prop :=
  ∃ gap word values, gap ∈ space comments ∧ Reports decoder (gap ++ word) values after ∧
    Derives comments part nesting (decoder.offset + gap.length) word values

theorem string_starts (inLang : word ∈ string) : ∃ rest, word = byte '"' :: rest := by
  obtain ⟨_, ⟨opening, opened, body, _, rfl⟩, closing, _, rfl⟩ := inLang
  have openQuote : opening = bytes "\"" := opened
  subst openQuote
  exact ⟨body ++ closing, rfl⟩

def valueByte (ch : UInt8) : Bool :=
  ch = byte '"' || ch = byte '-' || isDigit ch || ch = byte 'n' || ch = byte 't' || ch = byte 'f' ||
    ch = byte '[' || ch = byte '\x7b'

theorem derives_starts {comments : Bool} (derives : Derives comments part nesting start word values) :
    ∃ ch rest, word = ch :: rest ∧ valueByte ch = true := by
  induction derives with
  | literal nesting start word type isLiteral =>
    simp only [literals, List.mem_cons, Prod.mk.injEq, List.not_mem_nil, or_false] at isLiteral
    rcases isLiteral with ⟨rfl, _⟩ | ⟨rfl, _⟩ | ⟨rfl, _⟩
    · exact ⟨_, _, rfl, by decide⟩
    · exact ⟨_, _, rfl, by decide⟩
    · exact ⟨_, _, rfl, by decide⟩
  | number nesting start word isNumber =>
    obtain ⟨ch, rest, rfl, first⟩ := number_starts isNumber
    refine ⟨ch, rest, rfl, ?_⟩
    rcases first with rfl | digit
    · decide
    · simp [valueByte, digit]
  | string nesting start word isString =>
    obtain ⟨rest, rfl⟩ := string_starts isString
    exact ⟨_, _, rfl, by decide⟩
  | empty kind nesting start gap isSpace =>
    refine ⟨kind.opening, _, rfl, ?_⟩
    cases kind with
    | array => decide
    | object => decide
  | container kind nesting start gap body values isSpace items ih =>
    refine ⟨kind.opening, _, rfl, ?_⟩
    cases kind with
    | array => decide
    | object => decide
  | member nesting start name before after word values isName _ _ value ih =>
    obtain ⟨rest, rfl⟩ := string_starts isName
    exact ⟨_, _, rfl, by decide⟩
  | last kind nesting start word gap values item isSpace ih =>
    obtain ⟨ch, rest, rfl, first⟩ := ih
    exact ⟨ch, _, rfl, first⟩
  | more kind nesting start word before after body values others item _ _ rest ih _ =>
    obtain ⟨ch, rest, rfl, first⟩ := ih
    exact ⟨ch, _, rfl, first⟩

theorem scanItem_sound (ended : scanItem kind value decoder = .found after)
    (valueSound : ∀ mid, mid.allowComments = decoder.allowComments →
      mid.maxDepth = decoder.maxDepth → value mid = .found after →
      FindsItem decoder.allowComments .value nesting mid after) :
    FindsItem decoder.allowComments kind.item nesting decoder after := by
  cases kind with
  | array => exact valueSound decoder rfl rfl ended
  | object =>
    obtain ⟨afterName, named, ended⟩ := Outcome.andThen_found ended
    obtain ⟨afterGap, skipped, ended⟩ := Outcome.andThen_found ended
    split at ended
    next colon =>
      obtain ⟨name, isName, reads⟩ := string_scans.sound _ _ named
      have readsName := Reports.of_reads reads
      obtain ⟨ch, rest, text, isColon⟩ := nextIs_cons colon
      obtain ⟨before, isSpace₁, readsBefore⟩ :=
        (skipSpace_sound skipped).space (by rw [text]; simp)
      have readsColon := reports_one text
      have whole := (readsName.append readsBefore).append readsColon
      obtain ⟨gap, word, values, isSpace₂, readsWord, derives⟩ :=
        valueSound _ whole.comments whole.maxDepth ended
      rw [readsName.comments] at isSpace₁
      have colonEq : [ch] = bytes ":" := by
        rw [of_decide_eq_true isColon]
        rfl
      rw [colonEq] at whole
      have reports := whole.append readsWord
      have place : (skip 1 afterGap).offset + gap.length =
          decoder.offset + (name ++ before ++ bytes ":" ++ gap).length := by
        rw [whole.offset, Nat.add_assoc, ← List.length_append]
      rw [place] at derives
      refine ⟨[], name ++ before ++ bytes ":" ++ gap ++ word, values,
        Language.nil_mem_kstar _, ?_, Derives.member nesting decoder.offset name before gap word
          values isName isSpace₁ isSpace₂ derives⟩
      simpa using reports
    next => exact absurd ended (fail_not_found _ _ _)

theorem scanSeparator_sound (ended : scanSeparator kind loop decoder = .found after)
    (loopReads : ∀ mid, loop mid = .found after → mid.left ≠ []) :
    (∃ gap ∈ space decoder.allowComments, Reports decoder (gap ++ [kind.closing]) [] after) ∨
    ∃ before ∈ space decoder.allowComments, ∃ behind ∈ space decoder.allowComments, ∃ mid,
      Reports decoder (before ++ bytes "," ++ behind) [] mid ∧ loop mid = .found after := by
  obtain ⟨afterGap, skipped, ended⟩ := Outcome.andThen_found ended
  split at ended
  next => exact absurd ended (fail_not_found _ _ _)
  next ch rest text =>
    obtain ⟨gap, isSpace, readsGap⟩ := (skipSpace_sound skipped).space (by rw [text]; simp)
    have readsOne := reports_one text
    split at ended
    next closed =>
      cases ended
      rw [closed] at readsOne
      exact Or.inl ⟨gap, isSpace, readsGap.append readsOne⟩
    next =>
      split at ended
      next => exact absurd ended (fail_not_found _ _ _)
      next isComma =>
        obtain ⟨mid, skippedMore, ended⟩ := Outcome.andThen_found ended
        obtain ⟨behind, isSpaceMore, readsMore⟩ :=
          (skipSpace_sound skippedMore).space (loopReads mid ended)
        have whole := readsGap.append readsOne
        rw [whole.comments] at isSpaceMore
        have comma : [ch] = bytes "," := by
          rw [not_not.mp isComma]
          rfl
        rw [comma] at whole
        exact Or.inr ⟨gap, isSpace, behind, isSpaceMore, mid, whole.append readsMore, ended⟩

/-- A scan of what stands between two brackets, and of the closing one. -/
def FindsItems (comments : Bool) (kind : Kind) (nesting : Nat) (decoder after : CJsonDecoder) :
    Prop :=
  ∃ gap body values, gap ∈ space comments ∧
    Reports decoder (gap ++ body ++ [kind.closing]) values after ∧
    Derives comments (.items kind) nesting (decoder.offset + gap.length) body values

theorem FindsItems.more {comments : Bool} (finds : FindsItems comments kind nesting decoder after) :
    decoder.left ≠ [] := by
  obtain ⟨gap, word, values, _, reports, derives⟩ := finds
  rw [reports.left]
  simp

theorem store_sound {start : CJsonDecoder} (ended : store start type decoder = .found after)
    (reports : Reports start word values decoder) :
    Reports start word (values ++ [span start.allowComments start.offset word type]) after := by
  cases ended
  refine ⟨reports.1, ?_⟩
  rw [reports.2]
  simp [keep, skip, span]

theorem scanContainer_sound
    (ended : (scanContainer kind loop decoder).andThen (store decoder kind.type) = .found after)
    (opened : decoder.left = kind.opening :: rest)
    (loopSound : ∀ mid last, mid.allowComments = decoder.allowComments →
      mid.maxDepth = decoder.maxDepth → loop mid = .found last →
      FindsItems decoder.allowComments kind nesting mid last) :
    ∃ word values, Reports decoder word values after ∧
      Derives decoder.allowComments .value (nesting + 1) decoder.offset word values := by
  obtain ⟨last, ended, stored⟩ := Outcome.andThen_found ended
  obtain ⟨mid, skipped, ended⟩ := Outcome.andThen_found ended
  have readsOpening := reports_one opened
  split at ended
  next closed =>
    cases ended
    obtain ⟨ch, tail, text, isClosing⟩ := nextIs_cons closed
    obtain ⟨gap, isSpace, readsGap⟩ := (skipSpace_sound skipped).space (by rw [text]; simp)
    rw [of_decide_eq_true isClosing] at text
    have reports := (readsOpening.append readsGap).append (reports_one text)
    exact ⟨_, _, store_sound stored reports, Derives.empty kind nesting decoder.offset gap isSpace⟩
  next =>
    have kept : mid.allowComments = decoder.allowComments ∧ mid.maxDepth = decoder.maxDepth := by
      obtain ⟨gap, reads, _⟩ := skipSpace_sound skipped
      exact ⟨(Reports.of_reads reads).comments, (Reports.of_reads reads).maxDepth⟩
    have finds := loopSound mid last kept.1 kept.2 ended
    obtain ⟨gap, isSpace, readsGap⟩ := (skipSpace_sound skipped).space finds.more
    obtain ⟨extra, body, values, isExtra, reportsBody, derives⟩ := finds
    have start := readsOpening.append readsGap
    have gapMore : gap ++ extra ∈ space decoder.allowComments := append_mem_space isSpace isExtra
    have place : mid.offset + extra.length =
        decoder.offset + ([kind.opening] ++ (gap ++ extra)).length := by
      rw [start.offset]
      simp only [List.length_append]
      omega
    rw [place] at derives
    have derivesAll := Derives.container kind nesting decoder.offset (gap ++ extra) body values
      gapMore derives
    have reports : Reports decoder ([kind.opening] ++ (gap ++ extra) ++ body ++ [kind.closing])
        values last := by
      simpa using start.append reportsBody
    exact ⟨_, _, store_sound stored reports, derivesAll⟩

theorem literal_sound (ended : jsonDecodeLiteral word decoder = .found after) :
    ∃ read ∈ ({word} : Language UInt8), cursor.Reads decoder read after := by
  unfold jsonDecodeLiteral at ended
  split at ended
  next present =>
    cases ended
    exact ⟨word, rfl, List.prefix_iff_eq_take.mpr present.symm, rfl⟩
  next => exact absurd ended (fail_not_found _ _ _)

theorem literal_derives {comments : Bool} (isLiteral : (text, type) ∈ literals) (word : List UInt8)
    (same : word ∈ ({text} : Language UInt8)) :
    Derives comments .value nesting start word [span comments start word type] := by
  have eq : word = text := same
  subst eq
  exact Derives.literal nesting start word type isLiteral

theorem token_sound (lang : Language UInt8) {scan : CJsonDecoder → Scan}
    (ended : (scan decoder).andThen (store decoder type) = .found after)
    (sound : ∀ mid, scan decoder = .found mid → ∃ word ∈ lang, cursor.Reads decoder word mid)
    (derives : ∀ word ∈ lang, Derives decoder.allowComments .value nesting decoder.offset word
      [span decoder.allowComments decoder.offset word type]) :
    ∃ word values, Reports decoder word values after ∧
      Derives decoder.allowComments .value nesting decoder.offset word values := by
  obtain ⟨mid, scanned, stored⟩ := Outcome.andThen_found ended
  obtain ⟨word, inLang, reads⟩ := sound mid scanned
  exact ⟨word, _, store_sound stored (Reports.of_reads reads), derives word inLang⟩

theorem scan_sound (fuel : Nat) :
    (∀ depth decoder after, jsonDecodeScanValue fuel depth decoder = .found after →
      FindsItem decoder.allowComments .value (room decoder depth) decoder after) ∧
    ∀ kind depth decoder after, scanItems fuel kind depth decoder = .found after →
      FindsItems decoder.allowComments kind (room decoder (depth + 1)) decoder after := by
  induction fuel with
  | zero =>
    constructor
    · intro depth decoder after ended
      cases ended
    · intro kind depth decoder after ended
      cases ended
  | succ fuel ih =>
    obtain ⟨valueSound, itemsSound⟩ := ih
    constructor
    · intro depth decoder after ended
      rw [jsonDecodeScanValue] at ended
      obtain ⟨mid, skipped, ended⟩ := Outcome.andThen_found ended
      split at ended
      next => exact absurd ended (fail_not_found _ _ _)
      next ch rest text =>
        obtain ⟨gap, isSpace, readsGap⟩ := (skipSpace_sound skipped).space (by rw [text]; simp)
        have loopSound : ∀ kind (mid inner last : CJsonDecoder),
            inner.allowComments = mid.allowComments → inner.maxDepth = mid.maxDepth →
            scanItems fuel kind depth inner = .found last →
            FindsItems mid.allowComments kind (room mid (depth + 1)) inner last := by
          intro kind mid inner last comments maxDepth scanned
          have finds := itemsSound kind depth inner last scanned
          rw [comments, room, maxDepth] at finds
          exact finds
        have token : ∃ word values, Reports mid word values after ∧
            Derives mid.allowComments .value (room mid depth) mid.offset word values := by
          have deeper : ¬(depth : Int) ≥ mid.maxDepth →
              room mid depth = room mid (depth + 1) + 1 := by
            intro shallow
            simp only [room]
            omega
          split at ended
          next =>
            exact token_sound string ended (string_scans.sound mid) (Derives.string _ _)
          next =>
            split at ended
            next =>
              exact token_sound number ended (number_scans.sound mid) (Derives.number _ _)
            next =>
              split at ended
              next =>
                exact token_sound _ ended (fun _ => literal_sound) (literal_derives (by decide))
              next =>
                split at ended
                next =>
                  exact token_sound _ ended (fun _ => literal_sound) (literal_derives (by decide))
                next =>
                  split at ended
                  next =>
                    exact token_sound _ ended (fun _ => literal_sound)
                      (literal_derives (by decide))
                  next =>
                    split at ended
                    next opening =>
                      split at ended
                      next => exact absurd ended (fail_not_found _ _ _)
                      next shallow =>
                        rw [opening] at text
                        rw [deeper shallow]
                        exact scanContainer_sound ended text (loopSound .array mid)
                    next =>
                      split at ended
                      next opening =>
                        split at ended
                        next => exact absurd ended (fail_not_found _ _ _)
                        next shallow =>
                          rw [opening] at text
                          rw [deeper shallow]
                          exact scanContainer_sound ended text (loopSound .object mid)
                      next => exact absurd ended (fail_not_found _ _ _)
        obtain ⟨word, values, reports, derives⟩ := token
        rw [room, readsGap.comments, readsGap.maxDepth, readsGap.offset] at derives
        exact ⟨gap, word, values, isSpace, readsGap.append reports, derives⟩
    · intro kind depth decoder after ended
      rw [scanItems] at ended
      obtain ⟨afterItem, found, ended⟩ := Outcome.andThen_found ended
      have item : FindsItem decoder.allowComments kind.item (room decoder (depth + 1)) decoder
          afterItem := scanItem_sound found (by
        intro mid comments maxDepth scanned
        have finds := valueSound (depth + 1) mid afterItem scanned
        rw [comments, room, maxDepth] at finds
        exact finds)
      obtain ⟨gap, word, values, isSpace, reportsItem, derives⟩ := item
      rcases scanSeparator_sound ended fun mid scanned => (itemsSound _ _ _ _ scanned).more with
        ⟨last, isLast, reports⟩ | ⟨before, isBefore, behind, isBehind, mid, reports, scanned⟩
      · rw [reportsItem.comments] at isLast
        have whole := reportsItem.append reports
        refine ⟨gap, word ++ last, values, isSpace, ?_, Derives.last kind _ _ word last values
          derives isLast⟩
        simpa using whole
      · rw [reportsItem.comments] at isBefore isBehind
        have whole := reportsItem.append reports
        obtain ⟨extra, body, others, isExtra, reportsRest, derivesRest⟩ :=
          itemsSound kind depth mid after scanned
        rw [room, whole.maxDepth, ← room, whole.comments] at derivesRest
        rw [whole.comments] at isExtra
        have gapMore : behind ++ extra ∈ space decoder.allowComments :=
          append_mem_space isBehind isExtra
        have place : mid.offset + extra.length = decoder.offset + gap.length +
            (word ++ before ++ bytes "," ++ (behind ++ extra)).length := by
          rw [whole.offset]
          simp only [List.length_append]
          omega
        rw [place] at derivesRest
        have final := whole.append reportsRest
        refine ⟨gap, word ++ before ++ bytes "," ++ (behind ++ extra) ++ body, values ++ others,
          isSpace, ?_, Derives.more kind _ _ word before (behind ++ extra) body values others
            derives isBefore gapMore derivesRest⟩
        simpa using final

/-! ## Termination -/

theorem Reports.length (reports : Reports decoder word values after) :
    decoder.left.length = word.length + after.left.length := by
  rw [reports.left, List.length_append]

theorem skipSpace_length (ended : jsonDecodeSkipSpace decoder = .found after) :
    after.left.length ≤ decoder.left.length := by
  obtain ⟨gap, reads, _⟩ := skipSpace_sound ended
  have total := (Reports.of_reads reads).length
  omega

theorem value_length (ended : jsonDecodeScanValue fuel depth decoder = .found after) :
    after.left.length < decoder.left.length := by
  obtain ⟨gap, word, values, _, reports, derives⟩ := (scan_sound fuel).1 depth decoder after ended
  obtain ⟨ch, rest, rfl, _⟩ := derives_starts derives
  have total := reports.length
  simp only [List.length_append, List.length_cons] at total
  omega

theorem string_length (ended : jsonDecodeScanString decoder = .found after) :
    after.left.length < decoder.left.length := by
  obtain ⟨word, isString, reads⟩ := string_scans.sound decoder after ended
  obtain ⟨rest, rfl⟩ := string_starts isString
  have total := (Reports.of_reads reads).length
  simp only [List.length_cons] at total
  omega

theorem scanContainer_ends (text : decoder.left = ch :: rest)
    (loopEnds : ∀ mid, mid.left.length ≤ rest.length → loop mid ≠ .running) :
    scanContainer kind loop decoder ≠ .running := by
  apply Outcome.andThen_ends (skipSpace_ends _)
  intro mid skipped
  split
  · intro same
    cases same
  · have shorter := skipSpace_length skipped
    rw [left_skip_one text] at shorter
    exact loopEnds mid shorter

theorem scanSeparator_ends
    (loopEnds : ∀ mid, mid.left.length < decoder.left.length → loop mid ≠ .running) :
    scanSeparator kind loop decoder ≠ .running := by
  apply Outcome.andThen_ends (skipSpace_ends _)
  intro mid skipped
  have shorter := skipSpace_length skipped
  split
  next => exact fail_ends _ _
  next ch rest text =>
    split
    · intro same
      cases same
    split
    · exact fail_ends _ _
    · apply Outcome.andThen_ends (skipSpace_ends _)
      intro last skippedMore
      have shorterMore := skipSpace_length skippedMore
      rw [left_skip_one text] at shorterMore
      rw [text, List.length_cons] at shorter
      exact loopEnds last (by omega)

theorem scanItem_ends
    (valueEnds : ∀ mid, mid.left.length ≤ decoder.left.length → value mid ≠ .running) :
    scanItem kind value decoder ≠ .running := by
  cases kind with
  | array => exact valueEnds decoder (Nat.le_refl _)
  | object =>
    apply Outcome.andThen_ends (string_scans.ends decoder)
    intro afterName named
    have shorter := string_length named
    apply Outcome.andThen_ends (skipSpace_ends _)
    intro afterGap skipped
    have shorterMore := skipSpace_length skipped
    split
    next colon =>
      obtain ⟨ch, rest, text, _⟩ := nextIs_cons colon
      rw [text, List.length_cons] at shorterMore
      apply valueEnds
      rw [left_skip_one text]
      omega
    next => exact fail_ends _ _

theorem scanItem_length (ended : scanItem kind value decoder = .found after)
    (valueShrinks : ∀ mid, value mid = .found after → after.left.length < mid.left.length) :
    after.left.length < decoder.left.length := by
  cases kind with
  | array => exact valueShrinks decoder ended
  | object =>
    obtain ⟨afterName, named, ended⟩ := Outcome.andThen_found ended
    obtain ⟨afterGap, skipped, ended⟩ := Outcome.andThen_found ended
    have shorter := string_length named
    have shorterMore := skipSpace_length skipped
    split at ended
    next colon =>
      obtain ⟨ch, rest, text, _⟩ := nextIs_cons colon
      have last := valueShrinks _ ended
      rw [left_skip_one text] at last
      rw [text, List.length_cons] at shorterMore
      omega
    next => exact absurd ended (fail_not_found _ _ _)

theorem store_ends (start decoder : CJsonDecoder) (type : JsonType) :
    store start type decoder ≠ .running := by
  intro same
  cases same

theorem literal_ends (word : List UInt8) (decoder : CJsonDecoder) :
    jsonDecodeLiteral word decoder ≠ .running := by
  unfold jsonDecodeLiteral
  split
  · intro same
    cases same
  · exact fail_ends _ _

/-- Every call reads a byte before it calls again, at most two calls deep. -/
theorem scan_ends (fuel : Nat) :
    (∀ depth decoder, 2 * decoder.left.length < fuel →
      jsonDecodeScanValue fuel depth decoder ≠ .running) ∧
    ∀ kind depth decoder, 2 * decoder.left.length + 1 < fuel →
      scanItems fuel kind depth decoder ≠ .running := by
  induction fuel with
  | zero =>
    constructor
    · intro depth decoder enough
      omega
    · intro kind depth decoder enough
      omega
  | succ fuel ih =>
    obtain ⟨valueEnds, itemsEnds⟩ := ih
    constructor
    · intro depth decoder enough
      rw [jsonDecodeScanValue]
      apply Outcome.andThen_ends (skipSpace_ends decoder)
      intro mid skipped
      have shorter := skipSpace_length skipped
      have stored : ∀ {out : Scan} {type : JsonType}, out ≠ .running →
          out.andThen (store mid type) ≠ .running := fun ends =>
        Outcome.andThen_ends ends fun last _ => store_ends mid last _
      split
      next => exact fail_ends _ _
      next ch rest text =>
        rw [text, List.length_cons] at shorter
        have container : ∀ kind, scanContainer kind (scanItems fuel kind depth) mid ≠ .running :=
          fun kind => scanContainer_ends text fun inner le =>
            itemsEnds kind depth inner (by omega)
        split
        · exact stored (string_scans.ends mid)
        split
        · exact stored (number_scans.ends mid)
        split
        · exact stored (literal_ends _ mid)
        split
        · exact stored (literal_ends _ mid)
        split
        · exact stored (literal_ends _ mid)
        split
        · split
          · exact fail_ends _ _
          · exact stored (container .array)
        · split
          · split
            · exact fail_ends _ _
            · exact stored (container .object)
          · exact fail_ends _ _
    · intro kind depth decoder enough
      rw [scanItems]
      apply Outcome.andThen_ends
      · apply scanItem_ends
        intro mid le
        exact valueEnds (depth + 1) mid (by omega)
      · intro afterItem found
        have shorter := scanItem_length found fun mid => value_length
        apply scanSeparator_ends
        intro mid less
        exact itemsEnds kind depth mid (by omega)

/-! ## Completeness -/

theorem digit_not_space (digit : isDigit ch = true) : spaceByte ch = false := by
  cases space : spaceByte ch with
  | false => rfl
  | true =>
    simp only [spaceByte, jsonDecodeIsSpace, Bool.or_eq_true, decide_eq_true_eq] at space
    rcases space with ((((rfl | rfl) | rfl) | rfl) | rfl)
    all_goals exact absurd digit (by decide)

theorem value_not_space (first : valueByte ch = true) : spaceByte ch = false := by
  simp only [valueByte, Bool.or_eq_true, decide_eq_true_eq] at first
  rcases first with (((((((rfl | rfl) | digit) | rfl) | rfl) | rfl) | rfl) | rfl)
  case inl.inl.inl.inl.inl.inr => exact digit_not_space digit
  all_goals decide

theorem space_not_number (first : spaceByte ch = true) : numberByte ch = false := by
  simp only [spaceByte, jsonDecodeIsSpace, Bool.or_eq_true, decide_eq_true_eq] at first
  rcases first with ((((rfl | rfl) | rfl) | rfl) | rfl)
  all_goals decide

theorem blank_starts {comments : Bool} (isBlank : word ∈ blank comments) :
    ∃ ch rest, word = ch :: rest ∧ spaceByte ch = true := by
  cases isBlank with
  | inl single =>
    obtain ⟨ch, isSpace, rfl⟩ := single
    exact ⟨ch, [], rfl, by simp [spaceByte, isSpace]⟩
  | inr comment =>
    split at comment
    · cases comment with
      | inl line =>
        obtain ⟨_, ⟨slashes, isSlashes, body, _, rfl⟩, _, _, rfl⟩ := line
        have slashesEq : slashes = bytes "//" := isSlashes
        subst slashesEq
        exact ⟨byte '/', _, rfl, by decide⟩
      | inr block =>
        obtain ⟨body, _, rfl⟩ := block
        exact ⟨byte '/', _, rfl, by decide⟩
    · exact absurd comment (Language.notMem_zero word)

/-- White space does not continue what stands before it. -/
theorem space_stops {comments : Bool} (isSpace : gap ∈ space comments) (stop : Stops p rest)
    (other : ∀ ch, spaceByte ch = true → p ch = false) : Stops p (gap ++ rest) := by
  obtain ⟨words, rfl, all⟩ := Language.mem_kstar.mp isSpace
  cases words with
  | nil => exact stop
  | cons word words =>
    obtain ⟨ch, tail, rfl, first⟩ := blank_starts (all word (by simp))
    exact (stops_cons p ch _).mpr (other ch first)

theorem derives_stops {comments : Bool} (derives : Derives comments part nesting start word values)
    (rest : List UInt8) : Stops spaceByte (word ++ rest) := by
  obtain ⟨ch, tail, rfl, first⟩ := derives_starts derives
  exact (stops_cons _ ch _).mpr (value_not_space first)

/-- `decoder` stands before `word`, and room is left for `nesting` brackets. -/
structure Before (comments : Bool) (nesting depth : Nat) (decoder : CJsonDecoder)
    (word rest : List UInt8) : Prop where
  comments : decoder.allowComments = comments
  room : nesting ≤ room decoder depth
  text : decoder.left = word ++ rest

def Completes (comments : Bool) (part : Part) (nesting start : Nat) (word : List UInt8)
    (values : List CJsonValue) : Prop :=
  match part with
  | .value => ∀ fuel depth decoder gap rest, gap ∈ space comments →
      Before comments nesting depth decoder (gap ++ word) rest → start = decoder.offset + gap.length →
      Stops numberByte rest → 2 * word.length < fuel →
      jsonDecodeScanValue fuel depth decoder =
        .found (keep values (skip (gap ++ word).length decoder))
  | .member => ∀ fuel depth decoder rest,
      Before comments nesting depth decoder word rest → start = decoder.offset →
      Stops numberByte rest → 2 * word.length < fuel →
      scanItem .object (jsonDecodeScanValue fuel depth) decoder =
        .found (keep values (skip word.length decoder))
  | .items kind => ∀ fuel depth decoder rest,
      Before comments nesting (depth + 1) decoder (word ++ [kind.closing]) rest →
      start = decoder.offset → 2 * word.length + 1 < fuel →
      scanItems fuel kind depth decoder =
        .found (keep values (skip (word ++ [kind.closing]).length decoder))

theorem scanItem_complete {comments : Bool}
    (completes : Completes comments kind.item nesting start word values)
    (before : Before comments nesting depth decoder word rest) (place : start = decoder.offset)
    (stop : Stops numberByte rest) (enough : 2 * word.length < fuel) :
    scanItem kind (jsonDecodeScanValue fuel depth) decoder =
      .found (keep values (skip word.length decoder)) := by
  cases kind with
  | array => exact completes fuel depth decoder [] rest (Language.nil_mem_kstar _) before place stop enough
  | object => exact completes fuel depth decoder rest before place stop enough

/-- A token, from the white space in front of it to its span. -/
theorem scanToken_complete {scan : CJsonDecoder → Scan} (type : JsonType)
    (scanned : scan decoder = .found (skip word.length decoder)) :
    (scan decoder).andThen (store decoder type) =
      .found (keep [span decoder.allowComments decoder.offset word type]
        (skip word.length decoder)) := by
  rw [scanned]
  simp [store, keep, span, skip]

theorem skipSpace_stays (stop : Stops spaceByte decoder.left) :
    jsonDecodeSkipSpace decoder = .found decoder :=
  skipSpace_complete (Language.nil_mem_kstar _) rfl stop

theorem scanValue_skip (isSpace : gap ∈ space decoder.allowComments)
    (text : decoder.left = gap ++ rest) (stop : Stops spaceByte rest) :
    jsonDecodeScanValue fuel depth decoder =
      jsonDecodeScanValue fuel depth (skip gap.length decoder) := by
  have left : (skip gap.length decoder).left = rest := cursor.left_of_skip text
  cases fuel with
  | zero => rfl
  | succ fuel =>
    rw [jsonDecodeScanValue, jsonDecodeScanValue, skipSpace_complete isSpace text stop,
      skipSpace_stays (by rw [left]; exact stop)]

theorem literal_complete (text : decoder.left = word ++ rest) :
    jsonDecodeLiteral word decoder = .found (skip word.length decoder) := by
  rw [jsonDecodeLiteral, text, List.take_left, if_pos rfl]

theorem scanLiteral_complete (isLiteral : (word, type) ∈ literals)
    (text : decoder.left = word ++ rest) :
    jsonDecodeScanValue (fuel + 1) depth decoder =
      .found (keep [span decoder.allowComments decoder.offset word type]
        (skip word.length decoder)) := by
  have stop : Stops spaceByte decoder.left := by
    rw [text]
    have derives : Derives false .value 0 0 word _ := Derives.literal 0 0 word type isLiteral
    exact derives_stops derives rest
  rw [jsonDecodeScanValue, skipSpace_stays stop, Outcome.found_andThen]
  have scanned := scanToken_complete type (literal_complete text)
  simp only [literals, List.mem_cons, Prod.mk.injEq, List.not_mem_nil, or_false] at isLiteral
  rcases isLiteral with ⟨rfl, rfl⟩ | ⟨rfl, rfl⟩ | ⟨rfl, rfl⟩
  · have first : decoder.left = byte 'n' :: (bytes "ull" ++ rest) := text
    simp only [first]
    exact scanned
  · have first : decoder.left = byte 't' :: (bytes "rue" ++ rest) := text
    simp only [first]
    exact scanned
  · have first : decoder.left = byte 'f' :: (bytes "alse" ++ rest) := text
    simp only [first]
    exact scanned

theorem scanNumber_complete (isNumber : word ∈ number) (text : decoder.left = word ++ rest)
    (stop : Stops numberByte rest) :
    jsonDecodeScanValue (fuel + 1) depth decoder =
      .found (keep [span decoder.allowComments decoder.offset word .number]
        (skip word.length decoder)) := by
  have start : Stops spaceByte decoder.left := by
    rw [text]
    have derives : Derives false .value 0 0 word _ := Derives.number 0 0 word isNumber
    exact derives_stops derives rest
  rw [jsonDecodeScanValue, skipSpace_stays start, Outcome.found_andThen]
  have scanned := scanToken_complete .number
    (number_scans.complete decoder word rest isNumber text stop)
  obtain ⟨ch, tail, rfl, first⟩ := number_starts isNumber
  have head : decoder.left = ch :: (tail ++ rest) := text
  have notQuote : ch ≠ byte '"' := by
    intro same
    rw [same] at first
    exact absurd first (by decide)
  have begins : (ch = byte '-' || isDigit ch) = true := by
    rw [Bool.or_eq_true, decide_eq_true_eq]
    exact first
  simp only [head, if_neg notQuote, begins, if_true]
  exact scanned

theorem scanString_complete (isString : word ∈ string) (text : decoder.left = word ++ rest) :
    jsonDecodeScanValue (fuel + 1) depth decoder =
      .found (keep [span decoder.allowComments decoder.offset word .string]
        (skip word.length decoder)) := by
  have start : Stops spaceByte decoder.left := by
    rw [text]
    have derives : Derives false .value 0 0 word _ := Derives.string 0 0 word isString
    exact derives_stops derives rest
  rw [jsonDecodeScanValue, skipSpace_stays start, Outcome.found_andThen]
  have scanned := scanToken_complete .string
    (string_scans.complete decoder word rest isString text trivial)
  obtain ⟨tail, rfl⟩ := string_starts isString
  have head : decoder.left = byte '"' :: (tail ++ rest) := text
  simp only [head, if_true]
  exact scanned

theorem scanValue_container (kind : Kind) {tail : List UInt8}
    (text : decoder.left = kind.opening :: tail) (shallow : ¬(depth : Int) ≥ decoder.maxDepth) :
    jsonDecodeScanValue (fuel + 1) depth decoder =
      (scanContainer kind (scanItems fuel kind depth) decoder).andThen
        (store decoder kind.type) := by
  have stop : Stops spaceByte decoder.left := by
    rw [text, stops_cons]
    cases kind with
    | array => decide
    | object => decide
  rw [jsonDecodeScanValue, skipSpace_stays stop, Outcome.found_andThen]
  cases kind with
  | array =>
    have head : decoder.left = byte '[' :: tail := text
    simp only [head]
    exact if_neg shallow
  | object =>
    have head : decoder.left = byte '\x7b' :: tail := text
    simp only [head]
    exact if_neg shallow

theorem closing_not_space (kind : Kind) : spaceByte kind.closing = false := by
  cases kind with
  | array => decide
  | object => decide

theorem closing_not_number (kind : Kind) : numberByte kind.closing = false := by
  cases kind with
  | array => decide
  | object => decide

theorem nextIs_of_left (text : decoder.left = ch :: rest) : nextIs p decoder = p ch := by
  simp [nextIs, text]

theorem scanEmpty_complete (isSpace : gap ∈ space decoder.allowComments)
    (text : decoder.left = [kind.opening] ++ gap ++ [kind.closing] ++ rest) :
    scanContainer kind loop decoder =
      .found (skip ([kind.opening] ++ gap ++ [kind.closing]).length decoder) := by
  have opened : decoder.left = kind.opening :: (gap ++ (kind.closing :: rest)) := by
    rw [text]
    simp
  have inner := left_skip_one opened
  have atEnd : (skip gap.length (skip 1 decoder)).left = kind.closing :: rest :=
    cursor.left_of_skip inner
  have skipped : jsonDecodeSkipSpace (skip 1 decoder) = _ := skipSpace_complete isSpace inner
    ((stops_cons _ _ _).mpr (closing_not_space kind))
  rw [scanContainer, skipped, Outcome.found_andThen, nextIs_of_left atEnd]
  simp only [decide_true, if_true, skip_skip]
  congr 2
  simp
  omega

theorem scanBody_complete {final : CJsonDecoder} {tail : List UInt8}
    (isSpace : gap ∈ space decoder.allowComments)
    (text : decoder.left = kind.opening :: (gap ++ ch :: tail)) (first : valueByte ch = true)
    (looped : loop (skip (gap.length + 1) decoder) = .found final) :
    scanContainer kind loop decoder = .found final := by
  have inner := left_skip_one text
  have atBody : (skip gap.length (skip 1 decoder)).left = ch :: tail := cursor.left_of_skip inner
  have skipped : jsonDecodeSkipSpace (skip 1 decoder) = _ := skipSpace_complete isSpace inner
    ((stops_cons _ _ _).mpr (value_not_space first))
  have notClosing : ch ≠ kind.closing := by
    intro same
    rw [same] at first
    cases kind with
    | array => exact absurd first (by decide)
    | object => exact absurd first (by decide)
  rw [scanContainer, skipped, Outcome.found_andThen, nextIs_of_left atBody]
  simp only [notClosing, decide_false, Bool.false_eq_true, if_false, skip_skip]
  rw [Nat.add_comm 1]
  exact looped

theorem scanClosing_complete (isSpace : gap ∈ space decoder.allowComments)
    (text : decoder.left = gap ++ [kind.closing] ++ rest) :
    scanSeparator kind loop decoder = .found (skip (gap ++ [kind.closing]).length decoder) := by
  rw [List.append_assoc] at text
  have atEnd : (skip gap.length decoder).left = kind.closing :: rest := cursor.left_of_skip text
  have skipped : jsonDecodeSkipSpace decoder = _ := skipSpace_complete isSpace text
    ((stops_cons _ _ _).mpr (closing_not_space kind))
  rw [scanSeparator, skipped, Outcome.found_andThen]
  simp only [atEnd, if_true, skip_skip]
  congr 2
  simp

theorem scanComma_complete {before behind : List UInt8}
    (isSpace : before ∈ space decoder.allowComments)
    (isSpace' : behind ∈ space decoder.allowComments)
    (text : decoder.left = before ++ bytes "," ++ behind ++ rest) (stop : Stops spaceByte rest) :
    scanSeparator kind loop decoder =
      loop (skip (before ++ bytes "," ++ behind).length decoder) := by
  rw [List.append_assoc, List.append_assoc] at text
  have atComma : (skip before.length decoder).left = byte ',' :: (behind ++ rest) :=
    cursor.left_of_skip text
  have skipped : jsonDecodeSkipSpace decoder = _ := skipSpace_complete isSpace text
    ((stops_cons _ _ _).mpr (by decide))
  have skippedMore : jsonDecodeSkipSpace (skip 1 (skip before.length decoder)) = _ :=
    skipSpace_complete isSpace' (left_skip_one atComma) stop
  have notClosing : byte ',' ≠ kind.closing := by
    cases kind with
    | array => decide
    | object => decide
  rw [scanSeparator, skipped, Outcome.found_andThen]
  simp only [atComma, notClosing, if_false, ne_eq, not_true]
  rw [skippedMore, Outcome.found_andThen, skip_skip, skip_skip]
  congr 2
  simp [bytes, Nat.add_comm]

theorem room_deeper (deeper : nesting + 1 ≤ room decoder depth) :
    ¬(depth : Int) ≥ decoder.maxDepth ∧ nesting ≤ room decoder (depth + 1) := by
  simp only [room] at deeper ⊢
  omega

theorem store_complete
    (scanned : scanContainer kind loop decoder = .found (keep values (skip word.length decoder))) :
    (scanContainer kind loop decoder).andThen (store decoder kind.type) =
      .found (keep (values ++ [span decoder.allowComments decoder.offset word kind.type])
        (skip word.length decoder)) := by
  rw [scanned]
  simp [store, keep, span, skip]

/-- It is enough to show that a value is scanned from its first byte. -/
theorem completes_value {comments : Bool}
    (derives : Derives comments .value nesting start word values)
    (scans : ∀ fuel depth decoder rest, Before comments nesting depth decoder word rest →
      start = decoder.offset → Stops numberByte rest → 2 * word.length ≤ fuel →
      jsonDecodeScanValue (fuel + 1) depth decoder =
        .found (keep values (skip word.length decoder))) :
    Completes comments .value nesting start word values := by
  intro fuel depth decoder gap rest isSpace before place stop enough
  obtain ⟨fuel, rfl⟩ : ∃ less, fuel = less + 1 := ⟨fuel - 1, by omega⟩
  have text := before.text
  rw [List.append_assoc] at text
  rw [← before.comments] at isSpace
  rw [scanValue_skip isSpace text (derives_stops derives rest),
    scans fuel depth (skip gap.length decoder) rest
      ⟨before.comments, before.room, cursor.left_of_skip text⟩ place stop (by omega), skip_skip,
    List.length_append]

theorem emptyValue_complete {comments : Bool} (isSpace : gap ∈ space comments)
    (before : Before comments (nesting + 1) depth decoder
      ([kind.opening] ++ gap ++ [kind.closing]) rest) (place : start = decoder.offset) :
    jsonDecodeScanValue (fuel + 1) depth decoder =
      .found (keep [span comments start ([kind.opening] ++ gap ++ [kind.closing]) kind.type]
        (skip ([kind.opening] ++ gap ++ [kind.closing]).length decoder)) := by
  obtain ⟨shallow, _⟩ := room_deeper before.room
  rw [← before.comments] at isSpace
  have scanned : scanContainer kind (scanItems fuel kind depth) decoder = _ :=
    scanEmpty_complete isSpace before.text
  rw [← keep_nil (skip _ decoder)] at scanned
  have opened : decoder.left = kind.opening :: (gap ++ [kind.closing] ++ rest) := before.text
  rw [scanValue_container kind opened shallow, store_complete scanned, before.comments, place]
  rfl

theorem containerValue_complete {comments : Bool} {body : List UInt8}
    (isSpace : gap ∈ space comments)
    (items : Derives comments (.items kind) nesting (start + ([kind.opening] ++ gap).length)
      body values) (completes : Completes comments (.items kind) nesting
      (start + ([kind.opening] ++ gap).length) body values)
    (before : Before comments (nesting + 1) depth decoder
      ([kind.opening] ++ gap ++ body ++ [kind.closing]) rest) (place : start = decoder.offset)
    (enough : 2 * ([kind.opening] ++ gap ++ body ++ [kind.closing]).length ≤ fuel) :
    jsonDecodeScanValue (fuel + 1) depth decoder =
      .found (keep (values ++
          [span comments start ([kind.opening] ++ gap ++ body ++ [kind.closing]) kind.type])
        (skip ([kind.opening] ++ gap ++ body ++ [kind.closing]).length decoder)) := by
  obtain ⟨shallow, room⟩ := room_deeper before.room
  rw [← before.comments] at isSpace
  obtain ⟨ch, tail, bodyEq, first⟩ := derives_starts items
  have opened : decoder.left =
      kind.opening :: (gap ++ ch :: (tail ++ [kind.closing] ++ rest)) := by
    rw [before.text, bodyEq]
    simp
  have inner : (skip (gap.length + 1) decoder).left = body ++ [kind.closing] ++ rest := by
    have split : decoder.left = ([kind.opening] ++ gap) ++ (body ++ [kind.closing] ++ rest) := by
      rw [before.text]
      simp
    have left := cursor.left_of_skip (show cursor.left decoder = _ from split)
    rw [List.length_append, List.length_singleton, Nat.add_comm] at left
    exact left
  simp only [List.length_append, List.length_singleton] at enough
  have looped := completes fuel depth (skip (gap.length + 1) decoder) rest
    ⟨before.comments, room, inner⟩ (by
      rw [place, skip_offset, List.length_append, List.length_singleton, Nat.add_comm 1])
    (by omega)
  have scanned := scanBody_complete isSpace opened first looped
  have total : keep values (skip (body ++ [kind.closing]).length
      (skip (gap.length + 1) decoder)) = keep values
        (skip ([kind.opening] ++ gap ++ body ++ [kind.closing]).length decoder) := by
    rw [skip_skip]
    congr 2
    simp
    omega
  rw [total] at scanned
  rw [scanValue_container kind opened shallow, store_complete scanned, before.comments, place]

theorem scan_complete {comments : Bool} (derives : Derives comments part nesting start word values) :
    Completes comments part nesting start word values := by
  induction derives with
  | literal nesting start word type isLiteral =>
    apply completes_value (Derives.literal nesting start word type isLiteral)
    intro fuel depth decoder rest before place stop enough
    rw [scanLiteral_complete isLiteral before.text, before.comments, place]
  | number nesting start word isNumber =>
    apply completes_value (Derives.number nesting start word isNumber)
    intro fuel depth decoder rest before place stop enough
    rw [scanNumber_complete isNumber before.text stop, before.comments, place]
  | string nesting start word isString =>
    apply completes_value (Derives.string nesting start word isString)
    intro fuel depth decoder rest before place stop enough
    rw [scanString_complete isString before.text, before.comments, place]
  | empty kind nesting start gap isSpace =>
    apply completes_value (Derives.empty kind nesting start gap isSpace)
    intro fuel depth decoder rest before place stop enough
    exact emptyValue_complete isSpace before place
  | container kind nesting start gap body values isSpace items ih =>
    apply completes_value (Derives.container kind nesting start gap body values isSpace items)
    intro fuel depth decoder rest before place stop enough
    exact containerValue_complete isSpace items ih before place enough
  | member nesting start name before after word values isName isBefore isAfter value ih =>
    intro fuel depth decoder rest standing place stop enough
    rw [← standing.comments] at isBefore
    have text : decoder.left = name ++ (before ++ (bytes ":" ++ (after ++ word ++ rest))) := by
      rw [standing.text]
      simp
    have named := string_scans.complete decoder name _ isName text trivial
    have afterName : (skip name.length decoder).left = before ++ _ := cursor.left_of_skip text
    have skipped : jsonDecodeSkipSpace (skip name.length decoder) = _ :=
      skipSpace_complete isBefore afterName ((stops_cons _ _ _).mpr (by decide))
    have atColon : (skip before.length (skip name.length decoder)).left =
        byte ':' :: (after ++ word ++ rest) := cursor.left_of_skip afterName
    have atValue := left_skip_one atColon
    simp only [List.length_append] at enough
    have scanned := ih fuel depth (skip 1 (skip before.length (skip name.length decoder))) after
      rest isAfter ⟨standing.comments, standing.room, atValue⟩ (by
        simp only [place, skip_offset, List.length_append]
        simp [bytes, Nat.add_assoc])
      stop (by omega)
    simp only [scanItem, named, Outcome.found_andThen, cursor_skip, skipped,
      nextIs_of_left atColon, decide_true, if_true, scanned]
    rw [skip_skip, skip_skip, skip_skip]
    congr 3
    simp only [List.length_append, show (bytes ":").length = 1 from rfl]
    omega
  | last kind nesting start word gap values item isSpace ih =>
    intro fuel depth decoder rest standing place enough
    obtain ⟨fuel, rfl⟩ : ∃ less, fuel = less + 1 := ⟨fuel - 1, by omega⟩
    simp only [List.length_append] at enough
    rw [← standing.comments] at isSpace
    have text : decoder.left = word ++ (gap ++ ([kind.closing] ++ rest)) := by
      rw [standing.text]
      simp
    have stop : Stops numberByte (gap ++ ([kind.closing] ++ rest)) := by
      apply space_stops isSpace _ fun ch => space_not_number
      exact (stops_cons _ _ _).mpr (closing_not_number kind)
    have found := scanItem_complete ih ⟨standing.comments, standing.room, text⟩ place stop
      (show 2 * word.length < fuel by omega)
    have left : (keep values (skip word.length decoder)).left = gap ++ [kind.closing] ++ rest := by
      rw [keep_left, List.append_assoc]
      exact cursor.left_of_skip text
    have isLast : gap ∈ space (keep values (skip word.length decoder)).allowComments := isSpace
    rw [scanItems, found, Outcome.found_andThen, scanClosing_complete isLast left, skip_keep,
      skip_skip, List.append_assoc, ← List.length_append]
  | more kind nesting start word before after body values others item isBefore isAfter rest ih
      ihRest =>
      intro fuel depth decoder tail standing place enough
      obtain ⟨fuel, rfl⟩ : ∃ less, fuel = less + 1 := ⟨fuel - 1, by omega⟩
      simp only [List.length_append] at enough
      rw [← standing.comments] at isBefore isAfter
      have text : decoder.left =
          word ++ (before ++ bytes "," ++ after ++ (body ++ [kind.closing] ++ tail)) := by
        rw [standing.text]
        simp
      have stop : Stops numberByte
          (before ++ bytes "," ++ after ++ (body ++ [kind.closing] ++ tail)) := by
        rw [List.append_assoc, List.append_assoc]
        apply space_stops isBefore _ fun ch => space_not_number
        exact (stops_cons _ _ _).mpr (by decide)
      have found := scanItem_complete ih ⟨standing.comments, standing.room, text⟩ place stop
        (show 2 * word.length < fuel by omega)
      have left : (keep values (skip word.length decoder)).left = _ := cursor.left_of_skip text
      have bodyStop : Stops spaceByte (body ++ [kind.closing] ++ tail) := by
        rw [List.append_assoc]
        exact derives_stops rest _
      have atBody : (skip (before ++ bytes "," ++ after).length
          (keep values (skip word.length decoder))).left = body ++ [kind.closing] ++ tail :=
        cursor.left_of_skip left
      have comma : (bytes ",").length = 1 := rfl
      have looped := ihRest fuel depth (skip (before ++ bytes "," ++ after).length
          (keep values (skip word.length decoder))) tail
        ⟨standing.comments, standing.room, atBody⟩ (by
          rw [skip_offset, keep_offset, skip_offset, place]
          simp only [List.length_append]
          omega)
        (by omega)
      have isBefore' : before ∈ space (keep values (skip word.length decoder)).allowComments :=
        isBefore
      have isAfter' : after ∈ space (keep values (skip word.length decoder)).allowComments :=
        isAfter
      rw [scanItems, found, Outcome.found_andThen,
        scanComma_complete isBefore' isAfter' left bodyStop, looped, skip_keep, skip_keep, keep_keep,
        skip_skip, skip_skip]
      congr 3
      simp only [List.length_append]
      omega

/-! ## Spans -/

/-- `value` is the span of a value somewhere in `word`, which starts at `start`. -/
def Covers (comments : Bool) (start : Nat) (word : List UInt8) (value : CJsonValue) : Prop :=
  ∃ front inner back nesting values, word = front ++ inner ++ back ∧
    value.data = start + front.length ∧ value.length = inner.length ∧
    Derives comments .value nesting value.data inner values ∧ values.getLast? = some value

theorem Covers.inside {comments : Bool} {value : CJsonValue} (before behind : List UInt8)
    (covers : Covers comments (start + before.length) word value) :
    Covers comments start (before ++ word ++ behind) value := by
  obtain ⟨front, inner, back, nesting, values, rfl, data, length, derives, last⟩ := covers
  refine ⟨before ++ front, inner, back ++ behind, nesting, values, ?_, ?_, length, derives, last⟩
  · simp
  · rw [data, List.length_append]
    omega

theorem Covers.itself (values : List CJsonValue) {comments : Bool}
    (derives : Derives comments .value nesting start word
      (values ++ [span comments start word type])) :
    Covers comments start word (span comments start word type) := by
  refine ⟨[], word, [], nesting, _, by simp, rfl, rfl, derives, ?_⟩
  exact List.getLast?_concat

theorem derives_covers {comments : Bool} (derives : Derives comments part nesting start word values) :
    ∀ value ∈ values, Covers comments start word value := by
  induction derives with
  | literal nesting start word type isLiteral =>
    intro value member
    rw [List.mem_singleton.mp member]
    exact Covers.itself [] (Derives.literal nesting start word type isLiteral)
  | number nesting start word isNumber =>
    intro value member
    rw [List.mem_singleton.mp member]
    exact Covers.itself [] (Derives.number nesting start word isNumber)
  | string nesting start word isString =>
    intro value member
    rw [List.mem_singleton.mp member]
    exact Covers.itself [] (Derives.string nesting start word isString)
  | empty kind nesting start gap isSpace =>
    intro value member
    rw [List.mem_singleton.mp member]
    exact Covers.itself [] (Derives.empty kind nesting start gap isSpace)
  | container kind nesting start gap body values isSpace items ih =>
    intro value member
    cases List.mem_append.mp member with
    | inl inner => exact (ih value inner).inside _ _
    | inr last =>
      rw [List.mem_singleton.mp last]
      exact Covers.itself _ (Derives.container kind nesting start gap body values isSpace items)
  | member nesting start name before after word values isName isBefore isAfter value ih =>
    intro value member
    have inner := (ih value member).inside _ []
    rwa [List.append_nil] at inner
  | last kind nesting start word gap values item isSpace ih =>
    intro value member
    exact (ih value member).inside [] gap
  | more kind nesting start word before after body values others item isBefore isAfter rest ih
      ihRest =>
      intro value member
      cases List.mem_append.mp member with
      | inl first =>
        have inner := (ih value first).inside [] (before ++ bytes "," ++ after ++ body)
        simpa using inner
      | inr other =>
        have inner := (ihRest value other).inside _ []
        rwa [List.append_nil] at inner

theorem covers_spans {comments : Bool} {value : CJsonValue} (covers : Covers comments 0 text value) :
    Spans comments text value := by
  obtain ⟨front, inner, back, nesting, values, rfl, data, length, derives, last⟩ := covers
  rw [Nat.zero_add] at data
  refine ⟨?_, nesting, values, ?_, last⟩
  · rw [data, length]
    simp
  · have same : slice (front ++ inner ++ back) value.data value.length = inner := by
      rw [data, length, slice, List.append_assoc, List.drop_left, List.take_left]
    rwa [same]

/-! ## The whole text -/

def started (decoder : CJsonDecoder) (text : List UInt8) : CJsonDecoder :=
  { decoder with
    data := some text, offset := 0, error := .ok, errorOffset := 0, values := []
    maxDepth := if decoder.maxDepth < 1 then jsonDefaultMaxDepth else decoder.maxDepth }

theorem started_left (decoder : CJsonDecoder) (text : List UInt8) :
    (started decoder text).left = text := rfl

theorem started_room (decoder : CJsonDecoder) (text : List UInt8) :
    room (started decoder text) 0 = depthLimit decoder.maxDepth := by
  simp [room, started, depthLimit]

theorem jsonDecode_text (fuel : Nat) (decoder : CJsonDecoder) (text : List UInt8) :
    jsonDecode fuel { decoder with data := some text } =
      (jsonDecodeScanValue fuel 0 (started decoder text)).andThen fun mid =>
        (jsonDecodeSkipSpace mid).andThen fun last =>
          if last.offset ≠ text.length then jsonDecodeFail last .trailingData
          else .found last := rfl

theorem jsonDecode_sound (ended : jsonDecode fuel { decoder with data := some text } = .found after) :
    IsJson decoder.allowComments (depthLimit decoder.maxDepth) text after.values := by
  rw [jsonDecode_text] at ended
  obtain ⟨mid, scanned, ended⟩ := Outcome.andThen_found ended
  obtain ⟨last, skipped, ended⟩ := Outcome.andThen_found ended
  split at ended
  next => exact absurd ended (fail_not_found _ _ _)
  next atEnd =>
    cases ended
    have value := (scan_sound fuel).1 0 (started decoder text) mid scanned
    rw [started_room] at value
    obtain ⟨gap, word, values, isSpace, reports, derives⟩ := value
    obtain ⟨behind, reads, isBehind⟩ := skipSpace_sound skipped
    have reportsBehind := Reports.of_reads reads
    have whole := reports.append reportsBehind
    have split := whole.left
    rw [started_left] at split
    have offset : after.offset = 0 + (gap ++ word ++ behind).length := whole.offset
    have nothing : after.left = [] := by
      have total := congrArg List.length split
      rw [List.length_append, ← not_not.mp atEnd, offset] at total
      apply List.eq_nil_of_length_eq_zero
      omega
    rw [nothing, List.append_nil] at split
    have stored : after.values = values := by
      rw [whole.2]
      simp [keep, skip, started]
    rw [reports.comments] at isBehind
    have isTrailing : behind ∈ trailing decoder.allowComments := by
      cases isBehind with
      | inl isSpaceBehind => exact space_trailing isSpaceBehind
      | inr last => exact last.2
    have place : (started decoder text).offset + gap.length = gap.length := Nat.zero_add _
    rw [place] at derives
    rw [stored]
    exact ⟨gap, word, behind, split, isSpace, derives, isTrailing⟩

theorem trailing_stops {comments : Bool} (isTrailing : gap ∈ trailing comments)
    (other : ∀ ch, spaceByte ch = true → p ch = false) : Stops p gap := by
  obtain ⟨first, isSpace, last, isLast, rfl⟩ := Language.mem_mul.mp isTrailing
  apply space_stops isSpace _ other
  split at isLast
  · cases isLast with
    | inl empty =>
      rw [(Language.mem_one last).mp empty]
      exact stops_nil p
    | inr line =>
      obtain ⟨slashes, isSlashes, body, _, rfl⟩ := line
      have slashesEq : slashes = bytes "//" := isSlashes
      subst slashesEq
      exact (stops_cons p _ _).mpr (other _ (by decide))
  · rw [(Language.mem_one last).mp isLast]
    exact stops_nil p

theorem jsonDecode_complete (enough : 2 * text.length < fuel)
    (isJson : IsJson decoder.allowComments (depthLimit decoder.maxDepth) text values) :
    ∃ after, jsonDecode fuel { decoder with data := some text } = .found after ∧
      after.values = values := by
  obtain ⟨before, word, behind, split, isSpace, derives, isBehind⟩ := isJson
  have stop : Stops numberByte behind := trailing_stops isBehind fun ch => space_not_number
  have size : 2 * word.length < fuel := by
    rw [split] at enough
    simp only [List.length_append] at enough
    omega
  have scanned := scan_complete derives fuel 0 (started decoder text) before behind isSpace
    ⟨rfl, (started_room decoder text).ge, split⟩ (Nat.zero_add _).symm stop size
  have left : (keep values (skip (before ++ word).length (started decoder text))).left = behind :=
    cursor.left_of_skip split
  have inComments : behind ∈ trailing
      (keep values (skip (before ++ word).length (started decoder text))).allowComments := isBehind
  have atEnd : (skip behind.length
      (keep values (skip (before ++ word).length (started decoder text)))).offset = text.length := by
    rw [split]
    simp only [skip_offset, keep_offset, List.length_append]
    simp only [started]
    omega
  refine ⟨skip behind.length
    (keep values (skip (before ++ word).length (started decoder text))), ?_, ?_⟩
  · rw [jsonDecode_text, scanned, Outcome.found_andThen, skipSpace_trailing inComments left,
      Outcome.found_andThen, if_neg (not_not.mpr atEnd)]
  · simp [keep, skip, started]

theorem jsonDecode_ends (enough : 2 * text.length < fuel) :
    jsonDecode fuel { decoder with data := some text } ≠ .running := by
  rw [jsonDecode_text]
  apply Outcome.andThen_ends
  · exact (scan_ends fuel).1 0 (started decoder text) enough
  · intro mid _
    apply Outcome.andThen_ends (skipSpace_ends mid)
    intro last _
    split
    · exact fail_ends last _
    · intro same
      cases same

/-- Each value stored by the decoder covers the source of its value. -/
theorem jsonDecode_spans (ended : jsonDecode fuel { decoder with data := some text } = .found after) :
    ∀ value ∈ after.values, Spans decoder.allowComments text value := by
  intro value member
  obtain ⟨before, word, behind, split, _, derives, _⟩ := jsonDecode_sound ended
  apply covers_spans
  rw [split]
  apply Covers.inside before behind
  rw [Nat.zero_add]
  exact derives_covers derives value member

/-- The decoder ends, accepts just the JSON texts, and stores the spans of the
text's derivation, each of which covers the source of its value. -/
theorem jsonDecode_accepts (decoder : CJsonDecoder) (text : List UInt8) (extra : Nat) :
    jsonDecode (2 * text.length + 1 + extra) { decoder with data := some text } ≠ .running ∧
    ((∃ after, jsonDecode (2 * text.length + 1 + extra) { decoder with data := some text } =
        .found after) ↔
      ∃ values, IsJson decoder.allowComments (depthLimit decoder.maxDepth) text values) ∧
    ∀ after, jsonDecode (2 * text.length + 1 + extra) { decoder with data := some text } =
        .found after →
      IsJson decoder.allowComments (depthLimit decoder.maxDepth) text after.values ∧
      ∀ value ∈ after.values, Spans decoder.allowComments text value := by
  have enough : 2 * text.length < 2 * text.length + 1 + extra := by omega
  refine ⟨jsonDecode_ends enough, ⟨?_, ?_⟩, ?_⟩
  · rintro ⟨after, ended⟩
    exact ⟨after.values, jsonDecode_sound ended⟩
  · rintro ⟨values, isJson⟩
    obtain ⟨after, ended, _⟩ := jsonDecode_complete enough isJson
    exact ⟨after, ended⟩
  · intro after ended
    exact ⟨jsonDecode_sound ended, jsonDecode_spans ended⟩

/-- A `max_depth` of zero is not a limit of zero: the default replaces it. -/
theorem zero_depth_accepts :
    (∃ after, jsonDecode 5 { jsonDecoderInit none with data := some (bytes "[]"), maxDepth := 0 } =
      .found after) ∧
    ¬∃ values, IsJson false (0 : Int).toNat (bytes "[]") values := by
  constructor
  · have derives : Derives false .value 128 0 (bytes "[]") _ :=
      Derives.empty .array 127 0 [] (Language.nil_mem_kstar _)
    have isJson : IsJson false (depthLimit 0) (bytes "[]") _ :=
      ⟨[], bytes "[]", [], rfl, Language.nil_mem_kstar _, derives,
        space_trailing (Language.nil_mem_kstar _)⟩
    have small : 2 * (bytes "[]").length < 5 := by decide
    have accepted : ∃ after, jsonDecode 5
        { jsonDecoderInit none with data := some (bytes "[]"), maxDepth := 0 } = .found after ∧
          after.values = _ :=
      jsonDecode_complete small isJson
    obtain ⟨after, ended, _⟩ := accepted
    exact ⟨after, ended⟩
  · rintro ⟨values, before, word, behind, split, isSpace, derives, isBehind⟩
    have size : 2 * word.length < 5 := by
      have total := congrArg List.length split
      simp only [List.length_append, show (bytes "[]").length = 2 from rfl] at total
      omega
    have accepted := scan_complete derives 5 0
      { jsonDecoderInit (some (bytes "[]")) with maxDepth := 0 } before behind isSpace
      ⟨rfl, Nat.zero_le _, split⟩ (Nat.zero_add _).symm
      (trailing_stops isBehind fun ch => space_not_number) size
    have refused : jsonDecodeScanValue 5 0
        { jsonDecoderInit (some (bytes "[]")) with maxDepth := 0 } =
          jsonDecodeFail { jsonDecoderInit (some (bytes "[]")) with maxDepth := 0 } .maxDepth := rfl
    rw [refused] at accepted
    exact absurd accepted (fail_not_found _ _ _)

end Aholyc.Json
