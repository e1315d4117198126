import Mathlib.Tactic.Common
import Aholyc.Log.Rotate

/-!
# Runs of the log file (lib/log/log.hc)

Every operation of a rotation moves the writes of one file to an empty place, and only the
deletion of `path.keep` drops some.
-/

namespace Aholyc.Log

open Aholyc.Lib

variable {limit : Int} {keep i : Nat} {disk : Disk} {written : List (List UInt8)}
  {held : Nat → List (List UInt8)}

/-! ## Operations -/

theorem content_none (missing : disk i = none) : content disk i = [] := by
  unfold content
  rw [missing]
  rfl

theorem content_update (text : Option (List UInt8)) :
    content (Function.update disk i text) = Function.update (content disk) i (text.getD []) := by
  funext j
  unfold content
  by_cases same : j = i
  · rw [same, Function.update_self, Function.update_self]
  · rw [Function.update_of_ne same, Function.update_of_ne same]

theorem Holds.concatenation (holds : Holds limit keep ⟨disk, written⟩ held) :
    concatenation keep disk = (stacked held keep).flatten := by
  rw [stacked_flatten]
  apply stacked_congr
  intro i _
  exact holds.whole i

theorem Holds.rotated (holds : Holds limit keep ⟨disk, written⟩ held) :
    Rotated limit keep ⟨disk, written⟩ where
  suffix := by
    have isSuffix := List.suffix_iff_eq_drop.mp holds.latest
    refine ⟨_, holds.concatenation.trans (congrArg List.flatten isSuffix)⟩
  holds := ⟨held, holds⟩

theorem Holds.open_ (holds : Holds limit keep ⟨disk, written⟩ held) :
    Holds limit keep ⟨Function.update disk 0 (some (content disk 0)), written⟩ held := by
  have same : content (Function.update disk 0 (some (content disk 0))) = content disk := by
    rw [content_update]
    exact Function.update_eq_self 0 _
  constructor
  · intro i
    change content (Function.update disk 0 _) i = _
    rw [same]
    exact holds.whole i
  · intro i missing
    by_cases first : i = 0
    · rw [first] at missing
      change Function.update disk 0 _ 0 = none at missing
      rw [Function.update_self] at missing
      cases missing
    · change Function.update disk 0 _ i = none at missing
      rw [Function.update_of_ne first] at missing
      exact holds.missing i missing
  · intro i above
    change Function.update disk 0 _ i = none
    rw [Function.update_of_ne (Nat.ne_of_gt (Nat.zero_lt_of_lt above))]
    exact holds.numbered i above
  · exact holds.latest
  · intro positive i
    change _ < ((content (Function.update disk 0 _) i).length : Int) → _
    rw [same]
    exact holds.single positive i

theorem Holds.delete (holds : Holds limit keep ⟨disk, written⟩ held) :
    Holds limit keep ⟨Function.update disk keep none, written⟩ (Function.update held keep []) := by
  have own : content (Function.update disk keep none) keep = [] :=
    content_none (Function.update_self _ _ _)
  have other : ∀ i, i ≠ keep → content (Function.update disk keep none) i = content disk i := by
    intro i notKeep
    rw [content_update, Function.update_of_ne notKeep]
  constructor
  · intro i
    change content (Function.update disk keep none) i = _
    by_cases same : i = keep
    · rw [same, own, Function.update_self]
      rfl
    · rw [other i same, Function.update_of_ne same]
      exact holds.whole i
  · intro i missing
    by_cases same : i = keep
    · rw [same, Function.update_self]
    · change Function.update disk keep none i = none at missing
      rw [Function.update_of_ne same] at missing ⊢
      exact holds.missing i missing
  · intro i above
    change Function.update disk keep none i = none
    rw [Function.update_of_ne (Nat.ne_of_gt above)]
    exact holds.numbered i above
  · have isSuffix := holds.latest
    rw [stacked_drop] at isSuffix
    exact (List.suffix_append _ _).trans isSuffix
  · intro positive i large
    change limit < ((content (Function.update disk keep none) i).length : Int) at large
    by_cases same : i = keep
    · rw [same, own] at large
      exact absurd large (by simp only [List.length_nil]; omega)
    · rw [other i same] at large
      rw [Function.update_of_ne same]
      exact holds.single positive i large

variable {text : List UInt8}

theorem Holds.rename (holds : Holds limit keep ⟨disk, written⟩ held) (found : disk i = some text)
    (free : disk (i + 1) = none) (inside : i < keep) :
    Holds limit keep ⟨Function.update (Function.update disk (i + 1) (some text)) i none, written⟩
      (Function.update (Function.update held (i + 1) (held i)) i []) := by
  have isContent : text = content disk i := by
    unfold content
    rw [found]
    rfl
  have contents : content (Function.update (Function.update disk (i + 1) (some text)) i none) =
      Function.update (Function.update (content disk) (i + 1) (content disk i)) i [] := by
    rw [content_update, content_update, isContent]
    rfl
  constructor
  · intro j
    change content (Function.update _ i none) j = _
    rw [contents]
    by_cases own : j = i
    · rw [own, Function.update_self, Function.update_self]
      rfl
    · rw [Function.update_of_ne own, Function.update_of_ne own]
      by_cases next : j = i + 1
      · rw [next, Function.update_self, Function.update_self]
        exact holds.whole i
      · rw [Function.update_of_ne next, Function.update_of_ne next]
        exact holds.whole j
  · intro j missing
    change Function.update (Function.update disk (i + 1) (some text)) i none j = none at missing
    by_cases own : j = i
    · rw [own, Function.update_self]
    · rw [Function.update_of_ne own] at missing ⊢
      by_cases next : j = i + 1
      · rw [next, Function.update_self] at missing
        cases missing
      · rw [Function.update_of_ne next] at missing ⊢
        exact holds.missing j missing
  · intro j above
    change Function.update (Function.update disk (i + 1) (some text)) i none j = none
    rw [Function.update_of_ne (by omega), Function.update_of_ne (by omega)]
    exact holds.numbered j above
  · change stacked _ keep <:+ written
    rw [stacked_move (holds.missing (i + 1) free) inside]
    exact holds.latest
  · intro positive j large
    change limit < ((content (Function.update _ i none) j).length : Int) at large
    rw [contents] at large
    by_cases own : j = i
    · rw [own, Function.update_self] at large
      exact absurd large (by simp only [List.length_nil]; omega)
    · rw [Function.update_of_ne own] at large ⊢
      by_cases next : j = i + 1
      · rw [next, Function.update_self] at large ⊢
        exact holds.single positive i large
      · rw [Function.update_of_ne next] at large ⊢
        exact holds.single positive j large

/-- A text is written where it keeps the file in the limit, or where the file is empty. -/
theorem Holds.write (holds : Holds limit keep ⟨disk, written⟩ held)
    (fits : 0 < limit → ((content disk 0).length : Int) + text.length ≤ limit ∨ content disk 0 = []) :
    Holds limit keep
      ⟨Function.update disk 0 (some (content disk 0 ++ text)), written ++ [text]⟩
      (Function.update held 0 (held 0 ++ [text])) := by
  have contents : content (Function.update disk 0 (some (content disk 0 ++ text))) =
      Function.update (content disk) 0 (content disk 0 ++ text) := by
    rw [content_update]
    rfl
  constructor
  · intro i
    change content (Function.update disk 0 _) i = _
    rw [contents]
    by_cases first : i = 0
    · rw [first, Function.update_self, Function.update_self, List.flatten_append,
        List.flatten_singleton]
      exact congrArg (· ++ text) (holds.whole 0)
    · rw [Function.update_of_ne first, Function.update_of_ne first]
      exact holds.whole i
  · intro i missing
    change Function.update disk 0 _ i = none at missing
    by_cases first : i = 0
    · rw [first, Function.update_self] at missing
      cases missing
    · rw [Function.update_of_ne first] at missing ⊢
      exact holds.missing i missing
  · intro i above
    change Function.update disk 0 _ i = none
    rw [Function.update_of_ne (Nat.ne_of_gt (Nat.zero_lt_of_lt above))]
    exact holds.numbered i above
  · change stacked _ keep <:+ written ++ [text]
    rw [stacked_push]
    have ⟨front, isSplit⟩ := holds.latest
    exact ⟨front, by rw [← List.append_assoc, isSplit]⟩
  · intro positive i large
    change limit < ((content (Function.update disk 0 _) i).length : Int) at large
    rw [contents] at large
    by_cases first : i = 0
    · rw [first, Function.update_self] at large ⊢
      rw [List.length_append] at large
      cases fits positive with
      | inl small => exact absurd large (by push_cast; omega)
      | inr empty =>
        -- the file had no bytes, so that the writes before this one had none
        have noBytes : (held 0).filter (fun write => write ≠ []) = [] := by
          rw [List.filter_eq_nil_iff]
          intro write member
          have allEmpty := List.flatten_eq_nil_iff.mp ((holds.whole 0).symm.trans empty)
          rw [allEmpty write member]
          decide
        have isText : decide (text ≠ []) = true := by
          rw [decide_eq_true_eq]
          intro isEmpty
          rw [empty, isEmpty] at large
          exact absurd large (by simp only [List.length_nil]; omega)
        refine ⟨text, ?_⟩
        rw [List.filter_append, noBytes, List.nil_append, List.filter_singleton, isText]
        rfl
    · rw [Function.update_of_ne first] at large ⊢
      exact holds.single positive i large

/-! ## What each operation keeps -/

/-- The files of all moments hold the last of the writes. -/
structure Inv (limit : Int) (keep : Nat) (log : CLog) : Prop where
  rotateBytes : log.rotateBytes = limit
  rotateKeep : log.rotateKeep = keep
  holds : ∃ held, Holds limit keep ⟨log.disk, log.written⟩ held
  rotated : ∀ moment ∈ log.moments, Rotated limit keep moment
  last : ∀ moment ∈ log.moments.getLast?, moment = ⟨log.disk, log.written⟩
  follows : log.moments.IsChain (Follows keep)

variable {log : CLog}

theorem Inv.change (inv : Inv limit keep log) (holds : Holds limit keep ⟨disk, written⟩ held)
    (follows : Follows keep ⟨log.disk, log.written⟩ ⟨disk, written⟩) :
    Inv limit keep (log.change disk written) where
  rotateBytes := inv.rotateBytes
  rotateKeep := inv.rotateKeep
  holds := ⟨held, holds⟩
  rotated := by
    intro moment member
    cases List.mem_append.mp member with
    | inl old => exact inv.rotated moment old
    | inr new =>
      rw [List.mem_singleton.mp new]
      exact holds.rotated
  last := by
    intro moment isLast
    change moment ∈ (log.moments ++ [_]).getLast? at isLast
    rw [List.getLast?_concat] at isLast
    exact (Option.some.inj isLast).symm
  follows := by
    apply inv.follows.append (List.IsChain.singleton _)
    intro moment isLast next isNext
    rw [inv.last moment isLast, ← Option.some.inj isNext]
    exact follows

theorem follows_same {disk' : Disk} (same : concatenation keep disk' = concatenation keep disk) :
    Follows keep ⟨disk, written⟩ ⟨disk', written⟩ := by
  left
  refine ⟨[], (List.append_nil _).symm, ?_⟩
  rw [List.flatten_nil, List.append_nil]
  exact same

theorem Inv.open_ (inv : Inv limit keep log) : Inv limit keep (logOsFileOpen log) := by
  have ⟨held, holds⟩ := inv.holds
  apply inv.change holds.open_
  apply follows_same
  rw [holds.concatenation]
  exact holds.open_.concatenation

theorem Inv.delete (inv : Inv limit keep log) : Inv limit keep (logOsFileDelete keep log) := by
  have ⟨held, holds⟩ := inv.holds
  apply inv.change holds.delete
  right
  refine ⟨rfl, ?_⟩
  rw [holds.concatenation, holds.delete.concatenation, holds.whole keep, ← List.flatten_append]
  exact congrArg List.flatten stacked_drop

theorem Inv.rename (inv : Inv limit keep log) (free : log.disk (i + 1) = none) (inside : i < keep) :
    Inv limit keep (logOsFileRename i (i + 1) log) := by
  unfold logOsFileRename
  split
  next => exact inv
  next text found =>
    have ⟨held, holds⟩ := inv.holds
    apply inv.change (holds.rename found free inside)
    apply follows_same
    rw [holds.concatenation, (holds.rename found free inside).concatenation,
      stacked_move (holds.missing (i + 1) free) inside]

/-- Where the name is free, there is no file of the old name behind a renaming. -/
theorem logOsFileRename_missing : (logOsFileRename i (i + 1) log).disk i = none := by
  unfold logOsFileRename
  split
  next missing => exact missing
  next => exact Function.update_self _ _ _

theorem Inv.rotateLoop (inv : Inv limit keep log) (free : log.disk (i + 1) = none)
    (inside : i < keep) :
    Inv limit keep (rotateLoop i log) ∧ (Log.rotateLoop i log).disk 1 = none := by
  induction i generalizing log with
  | zero => exact ⟨inv, free⟩
  | succ i ih => exact ih (inv.rename free inside) logOsFileRename_missing (by omega)

/-- The log has a file to write to, and knows its size. -/
structure Ready (log : CLog) : Prop where
  opened : log.opened = true
  fileSize : log.fileSize = (content log.disk 0).length

/-- What `Inv` says does not depend on the other fields. -/
theorem Inv.of_same {log' : CLog} (inv : Inv limit keep log)
    (rotateBytes : log'.rotateBytes = log.rotateBytes)
    (rotateKeep : log'.rotateKeep = log.rotateKeep)
    (disk : log'.disk = log.disk) (written : log'.written = log.written)
    (moments : log'.moments = log.moments) : Inv limit keep log' := by
  constructor
  · rw [rotateBytes, inv.rotateBytes]
  · rw [rotateKeep, inv.rotateKeep]
  · rw [disk, written]
    exact inv.holds
  · rw [moments]
    exact inv.rotated
  · rw [moments, disk, written]
    exact inv.last
  · rw [moments]
    exact inv.follows

theorem Inv.openLocked (inv : Inv limit keep log) :
    Inv limit keep (logFileOpenLocked log) ∧ Ready (logFileOpenLocked log) := by
  constructor
  · exact inv.open_.of_same rfl rfl rfl rfl rfl
  · exact ⟨rfl, rfl⟩

theorem openLocked_content : content (logFileOpenLocked log).disk 0 = content log.disk 0 := by
  change content (Function.update log.disk 0 _) 0 = _
  rw [content_update, Function.update_self]
  rfl

theorem Inv.rotateLocked (inv : Inv limit keep log) (positive : 0 < keep) :
    Inv limit keep (logRotateLocked log) ∧ Ready (logRotateLocked log) ∧
      content (logRotateLocked log).disk 0 = [] := by
  have closed : Inv limit keep (logFileCloseLocked log) := inv.of_same rfl rfl rfl rfl rfl
  have isKeep : (logFileCloseLocked log).rotateKeep = keep := closed.rotateKeep
  have deleted := closed.delete
  have isKeep' : (logOsFileDelete keep (logFileCloseLocked log)).rotateKeep = keep :=
    deleted.rotateKeep
  have free : (logOsFileDelete keep (logFileCloseLocked log)).disk (keep - 1 + 1) = none := by
    rw [Nat.sub_add_cancel positive]
    exact Function.update_self _ _ _
  have ⟨moved, free'⟩ := deleted.rotateLoop free (Nat.sub_lt positive Nat.one_pos)
  have first := moved.rename free' positive
  have isRotated : logRotateLocked log = logFileOpenLocked (logOsFileRename 0 1
      (Log.rotateLoop (keep - 1) (logOsFileDelete keep (logFileCloseLocked log)))) := by
    dsimp only [logRotateLocked]
    rw [isKeep, isKeep']
  have ⟨opened, ready⟩ := first.openLocked
  rw [isRotated]
  refine ⟨opened, ready, ?_⟩
  rw [openLocked_content]
  exact content_none logOsFileRename_missing

theorem Inv.followLocked (inv : Inv limit keep log) (ready : Ready log) :
    Inv limit keep (followLocked log) ∧ Ready (Log.followLocked log) := by
  unfold Log.followLocked
  split
  next =>
    have ticked : Inv limit keep (logOsMs log).2 := inv.of_same rfl rfl rfl rfl rfl
    dsimp only
    split
    next =>
      have closed : Inv limit keep (logFileCloseLocked (logOsMs log).2) :=
        ticked.of_same rfl rfl rfl rfl rfl
      exact closed.openLocked
    next => exact ⟨ticked, ready.opened, ready.fileSize⟩
  next => exact ⟨inv, ready⟩

/-- The text comes to the end of the file, where the limit allows it or the file is empty. -/
theorem Inv.write (inv : Inv limit keep log) (ready : Ready log)
    (fits : 0 < limit → ((content log.disk 0).length : Int) + text.length ≤ limit ∨
      content log.disk 0 = []) :
    Inv limit keep { logOsFileWrite text log with fileSize := log.fileSize + text.length } ∧
      Ready { logOsFileWrite text log with fileSize := log.fileSize + text.length } := by
  have ⟨held, holds⟩ := inv.holds
  have written : Inv limit keep (logOsFileWrite text log) := by
    apply inv.change (holds.write fits)
    left
    refine ⟨[text], rfl, ?_⟩
    have whole := (holds.write fits).concatenation
    rw [stacked_push, List.flatten_append] at whole
    rw [holds.concatenation]
    exact whole
  refine ⟨written.of_same rfl rfl rfl rfl rfl, ready.opened, ?_⟩
  change log.fileSize + text.length = (content (Function.update log.disk 0 _) 0).length
  rw [content_update, Function.update_self, ready.fileSize]
  exact List.length_append.symm

theorem Inv.writeLocked (inv : Inv limit keep log) (ready : Ready log) (positive : 0 < keep)
    (text : List UInt8) :
    Inv limit keep (logFileWriteLocked text log) ∧ Ready (logFileWriteLocked text log) := by
  have ⟨follows, ready₁⟩ := inv.followLocked ready
  unfold logFileWriteLocked
  dsimp only
  split
  next =>
    have ⟨rotated, ready₂, empty⟩ := follows.rotateLocked positive
    rw [if_pos ready₂.opened]
    exact rotated.write ready₂ fun _ => Or.inr empty
  next small =>
    rw [if_pos ready₁.opened]
    apply follows.write ready₁
    intro limited
    have size := ready₁.fileSize
    rw [follows.rotateBytes] at small
    by_cases empty : content (Log.followLocked log).disk 0 = []
    · exact Or.inr empty
    · left
      have some_ := List.length_pos_of_ne_nil empty
      omega

/-! ## Runs -/

theorem logWrites_inv (inv : Inv limit keep log) (ready : Ready log) (positive : 0 < keep)
    (texts : List (List UInt8)) :
    Inv limit keep (texts.foldl (fun log text => logFileWriteLocked text log) log) := by
  induction texts generalizing log with
  | nil => exact inv
  | cons text rest ih =>
    have ⟨inv', ready'⟩ := inv.writeLocked ready positive text
    exact ih inv' ready'

def keptFiles (keep : Int) : Nat := if keep < 1 then 1 else keep.toNat

theorem keptFiles_pos (keep : Int) : 0 < keptFiles keep := by
  unfold keptFiles
  split <;> omega

theorem logInit_inv (maxBytes keep : Int) (reopen : Bool) (clock : Nat → Int) :
    Inv maxBytes (keptFiles keep) (logSetRotate maxBytes keep (logInit reopen clock)) where
  rotateBytes := rfl
  rotateKeep := rfl
  holds := by
    refine ⟨fun _ => [], fun _ => rfl, fun _ _ => rfl, fun _ _ => rfl, ?_, ?_⟩
    · rw [stacked_nil]
      exact List.nil_suffix
    · intro positive i large
      change maxBytes < 0 at large
      omega
  rotated := fun _ member => absurd member List.not_mem_nil
  last := by
    intro moment isLast
    cases isLast
  follows := List.IsChain.nil

theorem logOsFileRename_written {j : Nat} :
    (logOsFileRename i j log).written = log.written := by
  unfold logOsFileRename
  split <;> rfl

theorem rotateLoop_written : (rotateLoop i log).written = log.written := by
  induction i generalizing log with
  | zero => rfl
  | succ i ih =>
    unfold rotateLoop
    rw [ih, logOsFileRename_written]

theorem openLocked_written : (logFileOpenLocked log).written = log.written := rfl

theorem logRotateLocked_written : (logRotateLocked log).written = log.written := by
  unfold logRotateLocked
  dsimp only
  rw [openLocked_written, logOsFileRename_written, rotateLoop_written]
  rfl

theorem followLocked_written : (followLocked log).written = log.written := by
  unfold followLocked
  split
  · dsimp only
    split <;> rfl
  · rfl

theorem logFileWriteLocked_written (inv : Inv limit keep log) (ready : Ready log)
    (positive : 0 < keep) (text : List UInt8) :
    (logFileWriteLocked text log).written = log.written ++ [text] := by
  have ⟨follows, ready₁⟩ := inv.followLocked ready
  unfold logFileWriteLocked
  dsimp only
  split
  next =>
    have ⟨_, ready₂, _⟩ := follows.rotateLocked positive
    rw [if_pos ready₂.opened]
    change (logRotateLocked (followLocked log)).written ++ [text] = log.written ++ [text]
    rw [logRotateLocked_written, followLocked_written]
  next =>
    rw [if_pos ready₁.opened]
    exact congrArg (· ++ [text]) followLocked_written

theorem logWrites_written (inv : Inv limit keep log) (ready : Ready log) (positive : 0 < keep)
    (texts : List (List UInt8)) :
    (texts.foldl (fun log text => logFileWriteLocked text log) log).written =
      log.written ++ texts := by
  induction texts generalizing log with
  | nil => exact (List.append_nil _).symm
  | cons text rest ih =>
    have ⟨inv', ready'⟩ := inv.writeLocked ready positive text
    rw [List.foldl_cons, ih inv' ready', logFileWriteLocked_written inv ready positive,
      List.append_assoc, List.singleton_append]

/-- Rotation loses only the oldest lines. -/
theorem logRun_rotated (maxBytes keep : Int) (reopen : Bool) (clock : Nat → Int)
    (texts : List (List UInt8)) :
    (logRun maxBytes keep reopen clock texts).written = texts ∧
    (∀ moment ∈ (logRun maxBytes keep reopen clock texts).moments,
      Rotated maxBytes (keptFiles keep) moment) ∧
    (logRun maxBytes keep reopen clock texts).moments.IsChain (Follows (keptFiles keep)) := by
  have closed : Inv maxBytes (keptFiles keep)
      (logFileCloseLocked (logSetRotate maxBytes keep (logInit reopen clock))) :=
    (logInit_inv maxBytes keep reopen clock).of_same rfl rfl rfl rfl rfl
  have ⟨opened, ready⟩ := closed.openLocked
  have inv := logWrites_inv opened ready (keptFiles_pos keep) texts
  exact ⟨logWrites_written opened ready (keptFiles_pos keep) texts, inv.rotated, inv.follows⟩

/-- With a limit of 0 there is no rotation, and both writes stay in one file. -/
theorem logRun_unlimited :
    (0 : Int) <
        (content (logRun 0 1 false (fun _ => 0) [[0x61, 0x0A], [0x62, 0x0A]]).disk 0).length ∧
      ¬∃ text ∈ ([[0x61, 0x0A], [0x62, 0x0A]] : List (List UInt8)),
        content (logRun 0 1 false (fun _ => 0) [[0x61, 0x0A], [0x62, 0x0A]]).disk 0 = text := by
  decide +kernel

end Aholyc.Log
