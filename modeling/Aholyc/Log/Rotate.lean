import Mathlib.Data.List.Chain
import Aholyc.Lib.Shift

/-!
# The log file and its rotation (lib/log/log.hc)

File 0 is `path`, file `i` is `path.i`. No other process touches the files, and what the system
is asked to do succeeds. `written` holds the texts written so far, and `moments` the files
behind every operation on them.
-/

namespace Aholyc.Log

open Aholyc.Lib

abbrev Disk := Nat → Option (List UInt8)

structure Moment where
  disk : Disk
  written : List (List UInt8)

structure CLog where
  rotateBytes : Int
  rotateKeep : Nat
  reopen : Bool
  reopenLast : Int
  opened : Bool
  fileSize : Nat
  disk : Disk
  clock : Nat → Int
  ticks : Nat
  written : List (List UInt8)
  moments : List Moment

def logReopenMs : Int := 1000

def content (disk : Disk) (i : Nat) : List UInt8 := (disk i).getD []

def logOsMs (log : CLog) : Int × CLog := (log.clock log.ticks, { log with ticks := log.ticks + 1 })

def CLog.change (log : CLog) (disk : Disk) (written : List (List UInt8)) : CLog :=
  { log with disk := disk, written := written, moments := log.moments ++ [⟨disk, written⟩] }

def logOsFileOpen (log : CLog) : CLog :=
  log.change (Function.update log.disk 0 (some (content log.disk 0))) log.written

def logOsFileWrite (text : List UInt8) (log : CLog) : CLog :=
  log.change (Function.update log.disk 0 (some (content log.disk 0 ++ text)))
    (log.written ++ [text])

def logOsFileDelete (i : Nat) (log : CLog) : CLog :=
  log.change (Function.update log.disk i none) log.written

/-- A file that is missing is not renamed; one that has the new name is replaced. -/
def logOsFileRename (i j : Nat) (log : CLog) : CLog :=
  match log.disk i with
  | none => log
  | some text =>
    log.change (Function.update (Function.update log.disk j (some text)) i none) log.written

def logFileCloseLocked (log : CLog) : CLog := { log with opened := false, fileSize := 0 }

def logFileOpenLocked (log : CLog) : CLog :=
  let log := logOsFileOpen log
  let size := (content log.disk 0).length
  let (now, log) := logOsMs log
  { log with opened := true, fileSize := size, reopenLast := now }

def rotateLoop : Nat → CLog → CLog
  | 0, log => log
  | i + 1, log => rotateLoop i (logOsFileRename (i + 1) (i + 2) log)

def logRotateLocked (log : CLog) : CLog :=
  let log := logFileCloseLocked log
  let log := logOsFileDelete log.rotateKeep log
  let log := rotateLoop (log.rotateKeep - 1) log
  let log := logOsFileRename 0 1 log
  logFileOpenLocked log

def followLocked (log : CLog) : CLog :=
  if log.reopen then
    let (now, log) := logOsMs log
    if now - log.reopenLast ≥ logReopenMs then logFileOpenLocked (logFileCloseLocked log) else log
  else log

def logFileWriteLocked (text : List UInt8) (log : CLog) : CLog :=
  let log := followLocked log
  let log :=
    if log.rotateBytes > 0 ∧ log.fileSize > 0 ∧
        (log.fileSize : Int) + text.length > log.rotateBytes then logRotateLocked log
    else log
  if log.opened then
    let log := logOsFileWrite text log
    { log with fileSize := log.fileSize + text.length }
  else log

def logSetRotate (maxBytes keep : Int) (log : CLog) : CLog :=
  { log with rotateBytes := maxBytes, rotateKeep := if keep < 1 then 1 else keep.toNat }

def logSetFile (log : CLog) : CLog := logFileOpenLocked (logFileCloseLocked log)

def logInit (reopen : Bool) (clock : Nat → Int) : CLog :=
  ⟨0, 5, reopen, 0, false, 0, fun _ => none, clock, 0, [], []⟩

/-- A run of the log with a limit and a number of files that stay fixed. -/
def logRun (maxBytes keep : Int) (reopen : Bool) (clock : Nat → Int)
    (texts : List (List UInt8)) : CLog :=
  texts.foldl (fun log text => logFileWriteLocked text log)
    (logSetFile (logSetRotate maxBytes keep (logInit reopen clock)))

/-! ## What the files hold -/

def concatenation (keep : Nat) (disk : Disk) : List UInt8 := stacked (content disk) keep

/-- The files hold the last of the writes, each in one file; `held i` are those in file `i`. -/
structure Holds (limit : Int) (keep : Nat) (moment : Moment) (held : Nat → List (List UInt8)) :
    Prop where
  whole : ∀ i, content moment.disk i = (held i).flatten
  missing : ∀ i, moment.disk i = none → held i = []
  numbered : ∀ i, keep < i → moment.disk i = none
  latest : stacked held keep <:+ moment.written
  single : 0 < limit → ∀ i, limit < (content moment.disk i).length →
    ∃ text, (held i).filter (fun write => write ≠ []) = [text]

structure Rotated (limit : Int) (keep : Nat) (moment : Moment) : Prop where
  suffix : ∃ dropped, concatenation keep moment.disk = (moment.written.drop dropped).flatten
  holds : ∃ held, Holds limit keep moment held

/-- From one moment to the next a text is written, nothing changes, or the content of `path.keep`
is dropped. -/
def Follows (keep : Nat) (moment moment' : Moment) : Prop :=
  (∃ texts, moment'.written = moment.written ++ texts ∧
      concatenation keep moment'.disk = concatenation keep moment.disk ++ texts.flatten) ∨
    moment'.written = moment.written ∧
      concatenation keep moment.disk = content moment.disk keep ++ concatenation keep moment'.disk

end Aholyc.Log
