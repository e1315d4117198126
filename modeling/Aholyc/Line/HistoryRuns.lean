import Mathlib.Data.List.Chain
import Mathlib.Data.List.Induction
import Mathlib.Data.List.TakeWhile
import Aholyc.Line.History

/-!
# Sequences of history calls (lib/line/defaults.hc)

The entries after any calls are the newest of the accepted texts. Written to a file
and read again they are the same if and only if none of them has a line feed in it.
-/

namespace Aholyc.Line

open Aholyc.Lib

variable {history : CLineHistory} {texts : List Bytes}

/-! ## Files and slices -/

theorem fileOf_cons (text : Bytes) (texts : List Bytes) :
    fileOf (text :: texts) = text ++ newline :: fileOf texts := by
  unfold fileOf
  rw [List.flatMap_cons, List.append_assoc, List.singleton_append]

theorem fileOf_append (texts more : List Bytes) :
    fileOf (texts ++ more) = fileOf texts ++ fileOf more := List.flatMap_append

theorem fileOf_concat (texts : List Bytes) (text : Bytes) :
    fileOf (texts ++ [text]) = fileOf texts ++ (text ++ [newline]) := by
  rw [fileOf_append, fileOf_cons]
  rfl

theorem slicesFrom_concat (start : Nat) (texts : List Bytes) (text : Bytes) :
    slicesFrom start (texts ++ [text]) = slicesFrom start texts ++
      [⟨start + (fileOf texts).length, start + (fileOf texts).length + text.length⟩] := by
  induction texts generalizing start with
  | nil => rfl
  | cons other texts ih =>
    have isStart : start + other.length + 1 + (fileOf texts).length =
        start + (fileOf (other :: texts)).length := by
      rw [fileOf_cons, List.length_append, List.length_cons]
      omega
    rw [List.cons_append, slicesFrom, ih, isStart]
    rfl

theorem slicesFrom_rebase (first start : Nat) (texts : List Bytes) :
    (∀ slice ∈ slicesFrom (first + start) texts,
      rebase first slice = some ⟨slice.a - first, slice.b - first⟩) ∧
    (slicesFrom (first + start) texts).map (fun slice => ⟨slice.a - first, slice.b - first⟩) =
      slicesFrom start texts := by
  induction texts generalizing start with
  | nil =>
    constructor
    · intro slice member
      cases member
    · rfl
  | cons text texts ih =>
    have isNext : first + start + text.length + 1 = first + (start + text.length + 1) := by omega
    rw [slicesFrom, isNext]
    constructor
    · intro slice member
      rw [List.mem_cons] at member
      cases member with
      | inl isFirst =>
        rw [isFirst]
        exact if_pos (Nat.le_add_right first start)
      | inr inRest => exact (ih _).1 slice inRest
    · have isStart : first + start - first = start := Nat.add_sub_cancel_left _ _
      have isEnd : first + start + text.length - first = start + text.length := by omega
      rw [List.map_cons, (ih _).2, isStart, isEnd]
      rfl

theorem slicesFrom_bytes {start : Nat} {rest : Bytes} (texts : List Bytes)
    (isPool : history.pool.drop start = fileOf texts ++ rest) :
    (slicesFrom start texts).map history.bytes = texts := by
  induction texts generalizing start with
  | nil => rfl
  | cons text texts ih =>
    rw [fileOf_cons, List.append_assoc] at isPool
    have later : history.pool.drop (start + text.length + 1) = fileOf texts ++ rest := by
      have dropped := congrArg (List.drop (text.length + 1)) isPool
      rw [List.drop_drop, List.drop_append, List.drop_eq_nil_of_le (Nat.le_succ _),
        Nat.add_sub_cancel_left] at dropped
      exact dropped
    have isBytes : history.bytes ⟨start, start + text.length⟩ = text := by
      unfold CLineHistory.bytes CStrs.len
      rw [isPool, Nat.add_sub_cancel_left, List.take_left]
    rw [slicesFrom, List.map_cons, isBytes, ih later]

theorem Holds.drop_pool (holds : Holds history texts) :
    history.pool.drop 0 = fileOf texts ++ history.pool.drop history.used := by
  rw [← holds.pool, List.take_append_drop, List.drop_zero]

theorem Holds.texts_eq (holds : Holds history texts) : history.texts = texts := by
  unfold CLineHistory.texts
  rw [holds.entries, slicesFrom_bytes texts holds.drop_pool]

/-! ## One call -/

variable {text : Bytes}

theorem Holds.drop (holds : Holds history (text :: texts)) :
    ∃ history', lineHistoryDrop history = some history' ∧ Holds history' texts ∧
      history'.capacity = history.capacity ∧ history'.max = history.max := by
  have isCount := holds.count
  have isUsed := holds.used
  have count_le : history.count ≤ history.entries.length := holds.count_le
  have used_le : history.used ≤ history.pool.length := holds.used_le
  rw [List.length_cons] at isCount
  rw [fileOf_cons, List.length_append, List.length_cons] at isUsed
  have table := holds.entries
  rw [slicesFrom] at table
  have oldest : history.entries[0]? = some ⟨0, 0 + text.length⟩ := by
    have first : (history.entries.take history.count)[0]? = _ := congrArg (·[0]?) table
    rw [List.getElem?_take, if_pos (by omega)] at first
    exact first
  have len : CStrs.len ⟨0, 0 + text.length⟩ + 1 = text.length + 1 := by
    unfold CStrs.len
    dsimp only
    omega
  obtain ⟨pool, isPool, pool_length, moved⟩ := moveLoop_spec (f := some) (g := id)
    (n := history.used - (text.length + 1)) (l := history.pool)
    (Nat.zero_le (text.length + 1)) (by omega) (fun _ _ => rfl)
  have others : (history.entries.drop 1).take (history.count - 1) =
      slicesFrom (text.length + 1 + 0) texts := by
    have rest := congrArg (List.drop 1) table
    rw [List.drop_take, List.drop_one (l := _ :: _), List.tail_cons] at rest
    rw [rest, Nat.zero_add, Nat.add_zero]
  obtain ⟨entries, isTable, entries_length, rebased⟩ := moveLoop_spec
    (f := rebase (text.length + 1))
    (g := fun slice => ⟨slice.a - (text.length + 1), slice.b - (text.length + 1)⟩)
    (n := history.count - 1) (l := history.entries) (Nat.zero_le 1) (by omega)
    (by rw [others]; exact (slicesFrom_rebase _ 0 texts).1)
  rw [others, (slicesFrom_rebase _ 0 texts).2, List.take_zero, List.nil_append,
    Nat.zero_add] at rebased
  rw [List.take_zero, List.nil_append, Nat.zero_add, List.map_id] at moved
  refine ⟨⟨pool, history.used - (text.length + 1), entries, history.count - 1⟩, ?_, ?_,
    pool_length, entries_length⟩
  · unfold lineHistoryDrop lineMoveBytes
    rw [oldest]
    dsimp only [Option.bind_eq_bind, Option.bind_some]
    rw [len, isPool]
    dsimp only [Option.bind_some]
    rw [isTable]
    rfl
  · refine ⟨?_, ?_, ?_, ?_, ?_, rebased⟩
    · dsimp only
      omega
    · dsimp only
      omega
    · change history.count - 1 ≤ entries.length
      omega
    · change history.used - (text.length + 1) ≤ pool.length
      omega
    · dsimp only
      rw [moved, ← List.drop_take, holds.pool, fileOf_cons, List.drop_append,
        List.drop_eq_nil_of_le (Nat.le_succ _), Nat.add_sub_cancel_left]
      rfl

theorem fits_concat_iff {capacity max : Nat} {texts : List Bytes} (few : texts.length ≤ max) :
    ¬ (fits capacity max (texts ++ [text]) = true) ↔
      texts.length = max ∨ (fileOf texts).length + text.length + 1 > capacity := by
  unfold fits
  rw [Bool.and_eq_true, decide_eq_true_iff, decide_eq_true_iff, fileOf_concat, List.length_append,
    List.length_append, List.length_append, List.length_singleton, List.length_singleton]
  omega

theorem fits_shrinks {capacity max : Nat} (texts : List Bytes)
    (holds : fits capacity max (texts ++ [text]) = true) : fits capacity max texts = true := by
  unfold fits at holds ⊢
  rw [Bool.and_eq_true, decide_eq_true_iff, decide_eq_true_iff] at holds ⊢
  rw [fileOf_append, List.length_append, List.length_append] at holds
  omega

theorem fits_alone {capacity max : Nat} (some_entry : 1 ≤ max) (short : text.length + 1 ≤ capacity) :
    fits capacity max [text] = true := by
  unfold fits
  rw [Bool.and_eq_true, decide_eq_true_iff, decide_eq_true_iff, List.length_singleton,
    fileOf_cons, List.length_append, List.length_cons]
  exact ⟨some_entry, short⟩

/-- The oldest entries are forgotten until the text fits. -/
theorem Holds.room (holds : Holds history texts) (some_entry : 1 ≤ history.max)
    (short : text.length + 1 ≤ history.capacity) :
    ∃ history' front, roomLoop text.length texts.length history = some history' ∧
      Holds history' front ∧ history'.capacity = history.capacity ∧ history'.max = history.max ∧
      newest (fits history.capacity history.max) (texts ++ [text]) = front ++ [text] := by
  induction texts generalizing history with
  | nil =>
    have enough : ¬ (history.count = history.max ∨
        history.used + text.length + 1 > history.capacity) := by
      rw [holds.count, holds.used]
      change ¬ (0 = history.max ∨ 0 + text.length + 1 > history.capacity)
      omega
    refine ⟨history, [], ?_, holds, rfl, rfl, newest_of_fits (fits_alone some_entry short)⟩
    rw [List.length_nil, roomLoop, if_neg enough]
  | cons oldest texts ih =>
    have few : (oldest :: texts).length ≤ history.max := holds.count ▸ holds.count_le
    rw [List.length_cons, roomLoop]
    by_cases full : history.count = history.max ∨
        history.used + text.length + 1 > history.capacity
    · obtain ⟨dropped, isDropped, dropped_holds, same_capacity, same_max⟩ := holds.drop
      obtain ⟨history', front, isRoom, room_holds, capacity', max', isNewest⟩ :=
        ih dropped_holds (by rw [same_max]; exact some_entry)
          (by rw [same_capacity]; exact short)
      rw [if_pos full, isDropped, Option.bind_some, isRoom]
      rw [same_capacity, same_max] at isNewest
      rw [holds.count, holds.used] at full
      refine ⟨history', front, rfl, room_holds, capacity'.trans same_capacity,
        max'.trans same_max, ?_⟩
      have no : ¬ fits history.capacity history.max (oldest :: (texts ++ [text])) = true :=
        (fits_concat_iff few).mpr full
      rw [List.cons_append, newest_cons no, isNewest]
    · rw [if_neg full]
      refine ⟨history, oldest :: texts, rfl, holds, rfl, rfl, ?_⟩
      rw [holds.count, holds.used] at full
      apply newest_of_fits
      by_contra no
      exact full ((fits_concat_iff few).mp no)

theorem Holds.append (holds : Holds history texts)
    (enough : fits history.capacity history.max (texts ++ [text]) = true) :
    ∃ history', append text history = some history' ∧ Holds history' (texts ++ [text]) ∧
      history'.capacity = history.capacity ∧ history'.max = history.max := by
  unfold fits at enough
  rw [Bool.and_eq_true, decide_eq_true_iff, decide_eq_true_iff, fileOf_concat, List.length_append,
    List.length_append, List.length_append, List.length_singleton, List.length_singleton] at enough
  have isCount := holds.count
  have isUsed := holds.used
  obtain ⟨few, small⟩ := enough
  have inside : history.used + (text ++ [newline]).length ≤ history.pool.length := by
    rw [List.length_append, List.length_singleton]
    change _ ≤ history.capacity
    omega
  generalize isRest : history.pool.drop (history.used + (text ++ [newline]).length) = rest
  have isPool : copyTo history.pool history.used (text ++ [newline]) =
      some (fileOf texts ++ (text ++ [newline]) ++ rest) := by
    unfold copyTo
    rw [if_pos inside, holds.pool, isRest]
  have pool_length : (fileOf texts ++ (text ++ [newline]) ++ rest).length =
      history.pool.length := by
    have count := congrArg List.length isRest
    rw [List.length_drop] at count
    rw [List.length_append, List.length_append]
    omega
  have newUsed : history.used + text.length + 1 = (fileOf (texts ++ [text])).length := by
    rw [fileOf_concat, List.length_append, List.length_append, List.length_singleton]
    omega
  refine ⟨⟨_, history.used + text.length + 1,
    history.entries.set history.count ⟨history.used, history.used + text.length⟩,
    history.count + 1⟩, ?_, ?_, pool_length, List.length_set⟩
  · unfold Line.append
    rw [isPool]
    dsimp only [Option.bind_eq_bind, Option.bind_some]
    rw [if_pos (by omega : history.count < history.max)]
    rfl
  · refine ⟨?_, newUsed, ?_, ?_, ?_, ?_⟩
    · dsimp only
      rw [List.length_append, List.length_singleton, isCount]
    · change history.count + 1 ≤ (history.entries.set _ _).length
      rw [List.length_set]
      change _ ≤ history.max
      omega
    · change history.used + text.length + 1 ≤ (fileOf texts ++ (text ++ [newline]) ++ rest).length
      rw [pool_length]
      change _ ≤ history.capacity
      omega
    · dsimp only
      rw [newUsed, ← fileOf_concat, List.take_left]
    · have place : history.count < history.entries.length := by
        change _ < history.max
        omega
      dsimp only
      rw [List.take_add_one, List.take_set_of_le (Nat.le_refl _), holds.entries,
        List.getElem?_set_self place, slicesFrom_concat, isUsed, Nat.zero_add]
      rfl

theorem Holds.repeats (holds : Holds history texts) (text : Bytes) :
    repeats history text = some (decide (texts.getLast? = some text)) := by
  have isTexts := holds.texts_eq
  unfold CLineHistory.texts at isTexts
  unfold Line.repeats
  cases isEmpty : texts with
  | nil =>
    have none : history.count = 0 := by
      rw [holds.count, isEmpty]
      rfl
    rw [if_pos none]
    rfl
  | cons first rest =>
    have isCount := holds.count
    rw [isEmpty, List.length_cons] at isCount
    have count_le : history.count ≤ history.entries.length := holds.count_le
    have last : texts.getLast? = (history.entries[history.count - 1]?).map history.bytes := by
      rw [← isTexts, List.getLast?_eq_getElem?, List.length_map, List.length_take,
        List.getElem?_map, List.getElem?_take, Nat.min_eq_left count_le, if_pos (by omega)]
    have place : history.count - 1 < history.entries.length := by omega
    rw [if_neg (by omega), ← isEmpty, last, List.getElem?_eq_getElem place]
    simp only [Option.map_some, Option.some.injEq]

/-! ## Any number of calls -/

structure Accepted (capacity : Nat) (texts : List Bytes) : Prop where
  plain : ∀ text ∈ texts, text ≠ [] ∧ text.length + 1 ≤ capacity
  apart : texts.IsChain (· ≠ ·)

theorem Accepted.offer {capacity : Nat} (accepted : Accepted capacity texts) (text : Bytes) :
    Accepted capacity (offer capacity texts text) := by
  unfold Line.offer
  split
  · exact accepted
  next taken =>
    rw [not_or, not_or, Nat.not_lt] at taken
    constructor
    · intro other member
      rw [List.mem_append, List.mem_singleton] at member
      cases member with
      | inl old => exact accepted.plain other old
      | inr new =>
        rw [new]
        exact ⟨taken.1, taken.2.1⟩
    · apply List.isChain_append.mpr
      refine ⟨accepted.apart, List.isChain_singleton _, ?_⟩
      intro last isLast first isFirst same
      cases isFirst
      rw [same] at isLast
      exact taken.2.2 isLast

theorem Accepted.suffix {capacity : Nat} {suffix : List Bytes} (accepted : Accepted capacity texts)
    (isSuffix : suffix <:+ texts) : Accepted capacity suffix :=
  ⟨fun text member => accepted.plain text (isSuffix.subset member),
    accepted.apart.suffix isSuffix⟩

theorem Accepted.acceptedOf {capacity : Nat} (accepted : Accepted capacity texts) :
    acceptedOf capacity texts = texts := by
  induction texts using List.reverseRecOn with
  | nil => rfl
  | append_singleton texts text ih =>
    have front : Accepted capacity texts :=
      ⟨fun other member => accepted.plain other (List.mem_append_left _ member),
        accepted.apart.left_of_append⟩
    have last := accepted.plain text (List.mem_append_right _ List.mem_cons_self)
    have before : texts.foldl (Line.offer capacity) [] = texts := ih front
    have taken : ¬ (text = [] ∨ text.length + 1 > capacity ∨ texts.getLast? = some text) := by
      rw [not_or, not_or, Nat.not_lt]
      refine ⟨last.1, last.2, ?_⟩
      intro same
      exact (List.isChain_append.mp accepted.apart).2.2 text same text rfl rfl
    unfold Line.acceptedOf
    rw [List.foldl_append, before, List.foldl_cons, List.foldl_nil]
    exact if_neg taken

structure Keeps (capacity max : Nat) (history : CLineHistory) (accepted : List Bytes) : Prop where
  holds : Holds history (newest (fits capacity max) accepted)
  capacity_eq : history.capacity = capacity
  max_eq : history.max = max
  accepted : Accepted capacity accepted

variable {capacity max : Nat} {accepted : List Bytes}

theorem newest_getLast (some_entry : 1 ≤ max) (isAccepted : Accepted capacity accepted) :
    (newest (fits capacity max) accepted).getLast? = accepted.getLast? := by
  cases List.eq_nil_or_concat accepted with
  | inl none =>
    rw [none]
    rfl
  | inr isConcat =>
    obtain ⟨front, last, isConcat⟩ := isConcat
    rw [List.concat_eq_append] at isConcat
    rw [isConcat] at isAccepted ⊢
    have short := (isAccepted.plain last (List.mem_append_right _ List.mem_cons_self)).2
    obtain ⟨rest, isNewest⟩ := newest_keeps_last (fits_alone some_entry short) front
    rw [isNewest, List.getLast?_concat, List.getLast?_concat]

theorem Keeps.addStrs (keeps : Keeps capacity max history accepted) (some_entry : 1 ≤ max)
    (text : Bytes) : ∃ history', lineHistoryAddStrs text history = some history' ∧
      Keeps capacity max history' (offer capacity accepted text) := by
  have isAccepted := keeps.accepted.offer text
  unfold lineHistoryAddStrs
  unfold offer at isAccepted ⊢
  rw [keeps.capacity_eq, keeps.holds.repeats, Option.bind_some,
    newest_getLast some_entry keeps.accepted]
  by_cases empty : text = []
  · have noLength : text.length = 0 ∨ text.length + 1 > capacity := by
      rw [empty]
      exact Or.inl rfl
    rw [if_pos noLength, if_pos (Or.inl empty)]
    exact ⟨history, rfl, keeps⟩
  · by_cases long : text.length + 1 > capacity
    · rw [if_pos (Or.inr long), if_pos (Or.inr (Or.inl long))]
      exact ⟨history, rfl, keeps⟩
    have hasLength : ¬ (text.length = 0 ∨ text.length + 1 > capacity) := by
      rw [not_or, List.length_eq_zero_iff]
      exact ⟨empty, long⟩
    rw [if_neg hasLength]
    by_cases same : accepted.getLast? = some text
    · rw [if_pos (decide_eq_true same), if_pos (Or.inr (Or.inr same))]
      exact ⟨history, rfl, keeps⟩
    have taken : ¬ (text = [] ∨ text.length + 1 > capacity ∨
        accepted.getLast? = some text) := by
      rw [not_or, not_or]
      exact ⟨empty, long, same⟩
    rw [if_neg taken] at isAccepted ⊢
    rw [decide_eq_false same, if_neg Bool.false_ne_true]
    have short : text.length + 1 ≤ history.capacity := by
      rw [keeps.capacity_eq]
      omega
    obtain ⟨roomy, front, isRoom, room_holds, capacity', max', isNewest⟩ :=
      keeps.holds.room (by rw [keeps.max_eq]; exact some_entry) short
    rw [keeps.capacity_eq, keeps.max_eq, ← newest_concat fits_shrinks] at isNewest
    have enough : fits roomy.capacity roomy.max (front ++ [text]) = true := by
      rw [capacity', max', keeps.capacity_eq, keeps.max_eq, ← isNewest]
      exact newest_fits (by unfold fits fileOf; simp) _
    obtain ⟨history', isAppended, appended, capacity'', max''⟩ := room_holds.append enough
    rw [keeps.holds.count, isRoom, Option.bind_some, isAppended]
    refine ⟨history', rfl, ?_, ?_, ?_, isAccepted⟩
    · rw [isNewest]
      exact appended
    · rw [capacity'', capacity', keeps.capacity_eq]
    · rw [max'', max', keeps.max_eq]

theorem Keeps.load (keeps : Keeps capacity max history accepted) (some_entry : 1 ≤ max)
    (data : Bytes) : ∃ history', loadLoop data history = some history' ∧
      Keeps capacity max history' ((fileLines data).foldl (offer capacity) accepted) := by
  induction data using fileLines.induct generalizing history accepted with
  | case1 =>
    rw [loadLoop, fileLines]
    exact ⟨history, rfl, keeps⟩
  | case2 byte rest ih =>
    obtain ⟨next, isAdded, added⟩ :=
      keeps.addStrs some_entry ((byte :: rest).takeWhile (· ≠ newline))
    rw [loadLoop, fileLines, isAdded, Option.bind_some, List.foldl_cons]
    exact ih added

theorem Keeps.call (keeps : Keeps capacity max history accepted) (some_entry : 1 ≤ max)
    (call : HistoryCall) : ∃ history', call.run history = some history' ∧
      Keeps capacity max history' (call.texts.foldl (offer capacity) accepted) := by
  cases call with
  | add text =>
    cases text with
    | none => exact ⟨history, rfl, keeps⟩
    | some text => exact keeps.addStrs some_entry (cString text)
  | load data =>
    cases data with
    | none => exact ⟨history, rfl, keeps⟩
    | some data => exact keeps.load some_entry data

theorem Keeps.run (keeps : Keeps capacity max history accepted) (some_entry : 1 ≤ max)
    (calls : List HistoryCall) : ∃ history', historyRun history calls = some history' ∧
      Keeps capacity max history'
        ((calls.flatMap HistoryCall.texts).foldl (offer capacity) accepted) := by
  induction calls generalizing history accepted with
  | nil => exact ⟨history, rfl, keeps⟩
  | cons call calls ih =>
    obtain ⟨next, isCalled, called⟩ := keeps.call some_entry call
    obtain ⟨history', isRun, ran⟩ := ih called
    refine ⟨history', ?_, ?_⟩
    · unfold historyRun at isRun ⊢
      rw [List.foldlM_cons, isCalled]
      exact isRun
    · rw [List.flatMap_cons, List.foldl_append]
      exact ran

theorem keeps_init (pool : Bytes) (entries : List CStrs) :
    Keeps pool.length entries.length (lineHistoryInit pool entries) [] :=
  ⟨⟨rfl, rfl, Nat.zero_le _, Nat.zero_le _, rfl, rfl⟩, rfl, rfl,
    ⟨fun _ member => (List.not_mem_nil member).elim, List.isChain_nil⟩⟩

/-! ## Saving and loading -/

theorem fileLines_append (plain : newline ∉ text) (rest : Bytes) :
    fileLines (text ++ newline :: rest) = text :: fileLines rest := by
  have pass : ∀ byte ∈ text, decide (byte ≠ newline) = true := by
    intro byte member
    rw [decide_eq_true_iff]
    intro same
    exact plain (same ▸ member)
  have isLine : (text ++ newline :: rest).takeWhile (· ≠ newline) = text := by
    rw [List.takeWhile_append_of_pos pass, List.takeWhile_cons_of_neg (by decide), List.append_nil]
  have isBehind : behindLine (text ++ newline :: rest) = rest := by
    unfold behindLine
    rw [List.dropWhile_append_of_pos pass, List.dropWhile_cons_of_neg (by decide)]
    rfl
  cases isFile : text ++ newline :: rest with
  | nil => exact absurd isFile (List.append_ne_nil_of_right_ne_nil _ (List.cons_ne_nil _ _))
  | cons byte file => rw [fileLines, ← isFile, isLine, isBehind]

theorem fileLines_fileOf (plain : ∀ text ∈ texts, newline ∉ text) :
    fileLines (fileOf texts) = texts := by
  induction texts with
  | nil =>
    unfold fileOf
    rw [List.flatMap_nil, fileLines]
  | cons text texts ih =>
    rw [fileOf_cons, fileLines_append (plain text List.mem_cons_self),
      ih fun other member => plain other (List.mem_cons_of_mem _ member)]

theorem fileLines_plain (data : Bytes) : ∀ text ∈ fileLines data, newline ∉ text := by
  induction data using fileLines.induct with
  | case1 =>
    rw [fileLines]
    intro text member
    cases member
  | case2 byte rest ih =>
    rw [fileLines]
    intro text member
    rw [List.mem_cons] at member
    cases member with
    | inl first =>
      rw [first]
      intro inLine
      have passes := List.mem_takeWhile_imp inLine
      exact absurd passes (by decide)
    | inr inRest => exact ih text inRest

theorem acceptedOf_subset {capacity : Nat} (texts : List Bytes) :
    acceptedOf capacity texts ⊆ texts := by
  induction texts using List.reverseRecOn with
  | nil => exact List.Subset.refl _
  | append_singleton texts text ih =>
    unfold acceptedOf at ih ⊢
    rw [List.foldl_append, List.foldl_cons, List.foldl_nil]
    unfold offer
    split
    · exact List.subset_append_of_subset_left _ ih
    · exact List.append_subset.mpr ⟨List.subset_append_of_subset_left _ ih,
        List.subset_append_right _ _⟩

theorem Holds.save (holds : Holds history texts) : lineHistorySave history = fileOf texts :=
  holds.pool

theorem Keeps.roundTrips_iff (keeps : Keeps capacity max history accepted) (some_entry : 1 ≤ max) :
    RoundTrips history ↔ ∀ text ∈ newest (fits capacity max) accepted, newline ∉ text := by
  have isTexts := keeps.holds.texts_eq
  -- what any file gives to an empty history
  have loads (pool : Bytes) (entries : List CStrs) (isPool : pool.length = history.capacity)
      (isTable : entries.length = history.max) : ∃ loaded,
        lineHistoryLoad (some (lineHistorySave history)) (lineHistoryInit pool entries) =
          some loaded ∧ loaded.texts = newest (fits capacity max)
            (acceptedOf capacity (fileLines (fileOf history.texts))) := by
    have init := keeps_init pool entries
    rw [isPool, isTable, keeps.capacity_eq, keeps.max_eq] at init
    obtain ⟨loaded, isLoaded, kept⟩ := init.load some_entry (fileOf history.texts)
    refine ⟨loaded, ?_, kept.holds.texts_eq⟩
    rw [keeps.holds.save, ← isTexts]
    exact isLoaded
  constructor
  · intro roundTrips
    obtain ⟨loaded, isLoaded, same⟩ := roundTrips history.pool history.entries rfl rfl
    obtain ⟨loaded', isLoaded', given⟩ := loads history.pool history.entries rfl rfl
    rw [isLoaded] at isLoaded'
    cases isLoaded'
    intro text member
    rw [← isTexts, ← same, given] at member
    have inFile := acceptedOf_subset _ ((newest_suffix _ _).subset member)
    exact fileLines_plain _ text inFile
  · intro plain pool entries isPool isTable
    obtain ⟨loaded, isLoaded, given⟩ := loads pool entries isPool isTable
    refine ⟨loaded, isLoaded, ?_⟩
    have kept := keeps.accepted.suffix (newest_suffix (fits capacity max) accepted)
    rw [given, isTexts, fileLines_fileOf plain, kept.acceptedOf]
    exact newest_of_fits (newest_fits (by unfold fits fileOf; simp) accepted)

/-- After any calls the entries are the newest of the accepted texts, and the file restores them if
and only if none of them has a line feed in it. -/
theorem lineHistory_exact_iff {entries : List CStrs} (some_entry : 1 ≤ entries.length)
    (pool : Bytes) (calls : List HistoryCall) :
    (∃ history, historyRun (lineHistoryInit pool entries) calls = some history ∧
      Exact pool entries calls history) ↔
    ∀ text ∈ newest (fits pool.length entries.length)
      (acceptedOf pool.length (calls.flatMap HistoryCall.texts)), newline ∉ text := by
  obtain ⟨history, isRun, keeps⟩ := (keeps_init pool entries).run some_entry calls
  change Keeps _ _ history (acceptedOf pool.length (calls.flatMap HistoryCall.texts)) at keeps
  rw [← keeps.roundTrips_iff some_entry]
  have isTexts := keeps.holds.texts_eq
  constructor
  · rintro ⟨history', isRun', exact'⟩
    rw [isRun] at isRun'
    cases isRun'
    exact exact'.roundTrips
  · intro roundTrips
    refine ⟨history, isRun, ?_, ?_, ?_, ?_, roundTrips⟩
    · rw [isTexts]
      exact keeps.holds
    · rw [isTexts]
      exact newest_suffix _ _
    · rw [isTexts]
      exact newest_fits (by unfold fits fileOf; simp) _
    · intro suffix isSuffix enough
      rw [isTexts]
      exact newest_longest isSuffix enough

/-- Two entries are left of three: the pool has no room for the first. -/
theorem lineHistory_exact_iff_small :
    1 ≤ (List.replicate 3 (⟨0, 0⟩ : CStrs)).length ∧
    ∃ history, historyRun (lineHistoryInit (List.replicate 6 0) (List.replicate 3 ⟨0, 0⟩))
        [.add (some [0x61, 0x62]), .add (some [0x63]), .add (some [0x64, 0x65])] = some history ∧
      Exact (List.replicate 6 0) (List.replicate 3 ⟨0, 0⟩)
        [.add (some [0x61, 0x62]), .add (some [0x63]), .add (some [0x64, 0x65])] history :=
  ⟨by decide, (lineHistory_exact_iff (by decide) _ _).mpr (by decide)⟩

/-- One entry with a line feed comes back as two. -/
theorem newline_splits_entry :
    ¬ ∃ history, historyRun (lineHistoryInit (List.replicate 6 0) (List.replicate 3 ⟨0, 0⟩))
        [.add (some [0x61, 0x0A, 0x62])] = some history ∧
      Exact (List.replicate 6 0) (List.replicate 3 ⟨0, 0⟩)
        [.add (some [0x61, 0x0A, 0x62])] history := by
  rintro ⟨history, isRun, exact'⟩
  obtain ⟨history', isRun', keeps⟩ := (keeps_init (List.replicate 6 0)
    (List.replicate 3 ⟨0, 0⟩)).run (by decide) [.add (some [0x61, 0x0A, 0x62])]
  rw [isRun] at isRun'
  cases isRun'
  have plain := (keeps.roundTrips_iff (by decide)).mp exact'.roundTrips
  exact plain [0x61, 0x0A, 0x62] (by decide) (by decide)

end Aholyc.Line
