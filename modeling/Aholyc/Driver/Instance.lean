import Mathlib
import Aholyc.Lib.Programs

/-!
# Compiler instances (src/aholyc.c, src/util.c, src/lex.c)

An instance is used for one call of `aholyc_parseargv` after the other. Its fields are
those of `struct Aholyc`; a pointer is an address, and what it points to lies in the
world outside, with the files and all else that the system keeps. The lexer, the
preprocessor, the parser and the backends are programs over the operations below:
each of these may end in `error`, which leaves for `aholyc_parseargv` from any depth.
-/

namespace Aholyc.Driver

open Aholyc.Lib

abbrev Addr := Nat

abbrev Text := List UInt8

def text (s : String) : Text := s.toList.map Char.toUInt8

structure Argv where
  v : Addr
  n : Nat
  cap : Nat
  deriving DecidableEq, Repr

/-- The fields that the compiler reads and writes as it goes along. -/
structure Config where
  incDirs : Addr
  macros : Addr
  exePrefix : Addr
  exePrefixTail : Addr
  exePrefixVisibleTail : Addr
  cwd : Addr
  ccflags : Argv
  ppDepth : Int
  ppBraceDepth : Int
  ppParenDepth : Int
  ppBracketDepth : Int
  exeSerial : Int
  verbose : Bool
  keep : Bool
  shared : Bool
  archive : Bool
  useHints : Bool
  useAsm : Bool
  usePic : Bool
  useExceptions : Bool
  useStackProtector : Bool
  strictFnptr : Bool
  deriving DecidableEq, Repr

inductive CleanupFn where
  | null
  | free
  | cleanupFile
  | cleanupDso
  deriving DecidableEq, Repr

structure AholyCleanup where
  fn : CleanupFn
  arg : Addr
  deriving DecidableEq, Repr

structure Instance where
  /-- The blocks of `allocs`, the last one first. -/
  allocs : List Addr
  config : Config
  diagnostics : Addr
  cleanups : List AholyCleanup
  ncleanups : Nat
  error : Text
  errorActive : Bool
  deriving DecidableEq, Repr

structure Outside (World : Type) where
  stderr : Addr
  malloc : Nat → World → Addr × World
  free : Addr → World → World
  fclose : Addr → World → World
  dlclose : Addr → World → World
  /-- `memcpy` to a block. -/
  store : Addr → Text → World → World
  getcwd : World → (Addr × Text) × World
  fprintf : Addr → Text → World → World
  fopen : Text → World → Addr × World
  /-- Whether all has been written to a file. -/
  fwrite : Addr → Text → World → Bool × World
  /-- Whether the last file was closed without an error. -/
  closed : World → Bool
  /-- The bytes from what is behind `stdin`, and whether they end there. -/
  read : Nat → World → (Text × Bool) × World
  /-- Whether what is behind `stdout` takes the bytes. -/
  write : Text → World → Bool × World

/-- An instance and the process that it is in: the indicators of the standard streams, which
stay set until the process ends, and the world. -/
structure Process (World : Type) where
  cc : Instance
  stdinEof : Bool
  stdoutError : Bool
  world : World
  /-- The cleanups that have been registered, and those that have been run. -/
  pushed : List AholyCleanup
  ran : List AholyCleanup
  deriving DecidableEq, Repr

/-- How control leaves a function other than by its return. -/
inductive Leave where
  | longjmp
  | exit
  deriving DecidableEq, Repr

abbrev Place := Option Text × Int

inductive Op (World : Type) : Type → Type 1 where
  | config : Op World Config
  | setConfig (config : Config) : Op World Unit
  /-- `cc->allocs`, a mark for `xfree_to`. -/
  | mark : Op World Addr
  | xmalloc (n : Nat) : Op World Addr
  | xfreeTo (mark : Addr) : Op World Unit
  | error {α : Type} (tok : Option Place) (msg : Text) : Op World α
  | warnTok (tok : Option Place) (msg : Text) : Op World Unit
  /-- `fread` from `stdin`. -/
  | fread (size : Nat) : Op World Text
  /-- `fwrite` and `fflush` to `stdout`: whether they succeed. -/
  | fwrite (data : Text) : Op World Bool
  /-- `ferror (stdout)` -/
  | ferror : Op World Bool
  /-- A part of the program that does not touch the instance. -/
  | outside {α : Type} (step : World → α × World) : Op World α

abbrev Program (World : Type) := Prog (Op World) AholyCleanup

variable {World : Type}

/-! ## The operations -/

def sizeMax : Nat := 2 ^ 64 - 1

/-- `sizeof (AholyAlloc)`, in front of each block. -/
def headerSize : Nat := 16

def snprintf (size : Nat) (s : Text) : Text := s.take (size - 1)

def place (tok : Place) : Text := tok.1.getD (text "?") ++ text ":" ++ text (toString tok.2)

variable (out : Outside World)

def report (tok : Option Place) (level msg : Text) (p : Process World) : Process World :=
  let msg := snprintf 768 msg
  let error := snprintf 1024 (match tok with
    | some tok => place tok ++ text ": " ++ level ++ text ": " ++ msg
    | none => text "aholyc: " ++ level ++ text ": " ++ msg)
  { p with
    cc := { p.cc with error := error }
    world := if p.cc.diagnostics = 0 then p.world
      else out.fprintf p.cc.diagnostics (error ++ text "\n") p.world }

def callCleanup (c : AholyCleanup) (p : Process World) : Process World :=
  { p with
    world := match c.fn with
      | .null => p.world
      | .free => out.free c.arg p.world
      | .cleanupFile => out.fclose c.arg p.world
      | .cleanupDso => out.dlclose c.arg p.world
    ran := p.ran ++ [c] }

def zeroCleanup : AholyCleanup := ⟨.null, 0⟩

def cleanupLoop : Nat → Process World → Process World
  | 0, p => p
  | n + 1, p => cleanupLoop n
      (callCleanup out (p.cc.cleanups.getD n zeroCleanup)
        { p with cc := { p.cc with ncleanups := n } })

def cleanupAll (p : Process World) : Process World := cleanupLoop out p.cc.ncleanups p

def halt {α : Type} (p : Process World) : Except Leave α × Process World :=
  let p := cleanupAll out p
  (.error (if p.cc.errorActive then .longjmp else .exit), p)

def error {α : Type} (tok : Option Place) (msg : Text) (p : Process World) :
    Except Leave α × Process World :=
  halt out (report out tok (text "error") msg p)

def warnTok (tok : Option Place) (msg : Text) (p : Process World) : Process World :=
  { p with
    world := if p.cc.diagnostics = 0 then p.world
      else out.fprintf p.cc.diagnostics (match tok with
        | some tok => place tok ++ text ": warning: " ++ snprintf 768 msg ++ text "\n"
        | none => text "aholyc: warning: " ++ snprintf 768 msg ++ text "\n") p.world }

def xmalloc (n : Nat) (p : Process World) : Except Leave Addr × Process World :=
  let size := if n = 0 then 1 else n
  if size > sizeMax - headerSize then error out none (text "out of memory") p
  else
    let a := out.malloc (headerSize + size) p.world
    if a.1 = 0 then error out none (text "out of memory") { p with world := a.2 }
    else (.ok (a.1 + headerSize),
      { p with cc := { p.cc with allocs := a.1 :: p.cc.allocs }, world := a.2 })

/-- The loop of `xfree_to`: the blocks that stay, and the world without the others. -/
def freeLoop (mark : Addr) : List Addr → World → List Addr × World
  | [], world => ([], world)
  | a :: allocs, world =>
    if a = mark then (a :: allocs, world) else freeLoop mark allocs (out.free a world)

def xfreeTo (mark : Addr) (p : Process World) : Process World :=
  let left := freeLoop out mark p.cc.allocs p.world
  { p with cc := { p.cc with allocs := left.1 }, world := left.2 }

def cleanupPush (c : AholyCleanup) (p : Process World) : Except Leave Unit × Process World :=
  let p := { p with pushed := p.pushed ++ [c] }
  if p.cc.ncleanups = 8 then error out none (text "too many pending cleanups") (callCleanup out c p)
  else (.ok (), { p with cc := { p.cc with
    cleanups := p.cc.cleanups.set p.cc.ncleanups c
    ncleanups := p.cc.ncleanups + 1 } })

def cleanupPop (p : Process World) : Process World :=
  { p with cc := { p.cc with ncleanups := p.cc.ncleanups - 1 } }

def fread (size : Nat) (p : Process World) : Text × Process World :=
  if p.stdinEof then ([], p)
  else
    let got := out.read size p.world
    (got.1.1, { p with stdinEof := got.1.2, world := got.2 })

def fwrite (data : Text) (p : Process World) : Bool × Process World :=
  let put := out.write data p.world
  (put.1, { p with stdoutError := p.stdoutError || !put.1, world := put.2 })

def exec {α : Type} : Op World α → Process World → Except Leave α × Process World
  | .config, p => (.ok p.cc.config, p)
  | .setConfig config, p => (.ok (), { p with cc := { p.cc with config := config } })
  | .mark, p => (.ok (p.cc.allocs.headD 0), p)
  | .xmalloc n, p => xmalloc out n p
  | .xfreeTo mark, p => (.ok (), xfreeTo out mark p)
  | .error tok msg, p => error out tok msg p
  | .warnTok tok msg, p => (.ok (), warnTok out tok msg p)
  | .fread size, p => (.ok (fread out size p).1, (fread out size p).2)
  | .fwrite data, p => (.ok (fwrite out data p).1, (fwrite out data p).2)
  | .ferror, p => (.ok p.stdoutError, p)
  | .outside step, p => (.ok (step p.world).1, { p with world := (step p.world).2 })

/-- Between `cleanup_push` and `cleanup_pop` stands a program; then the cleanup's function is
called where they are. -/
def handler : Handler (Op World) AholyCleanup Leave (Process World) where
  exec := exec out
  enter := cleanupPush out
  leave c p := callCleanup out c (cleanupPop p)

/-! ## The programs -/

def config : Program World Config := .perform .config

def setConfig (c : Config) : Program World Unit := .perform (.setConfig c)

def outside {α : Type} (step : World → α × World) : Program World α := .perform (.outside step)

def fail {α : Type} (msg : Text) : Program World α := .perform (.error none msg)

def xstrdup (s : Text) : Program World Addr := do
  let p ← .perform (.xmalloc (s.length + 1))
  outside fun world => ((), out.store p (s ++ [0]) world)
  pure p

def writeFile (path data : Text) : Program World Unit :=
  if path = text "-" then do
    let all ← .perform (.fwrite data)
    let failed ← .perform .ferror
    if !all || failed then fail (text "writing to stdout failed") else pure ()
  else do
    let f ← outside (out.fopen path)
    if f = 0 then fail (text "cannot write '" ++ path ++ text "'")
    else
      let all ← .within ⟨.cleanupFile, f⟩ (outside (out.fwrite f data))
      let closed ← outside fun world => (out.closed world, world)
      if !all || !closed then fail (text "writing '" ++ path ++ text "' failed") else pure ()

def clearConfig : Program World Unit := do
  .perform (.xfreeTo 0)
  let c ← config
  setConfig { c with incDirs := 0, macros := 0, cwd := 0, ccflags := ⟨0, 0, 0⟩ }

structure Compiler (World : Type) where
  /-- The names that `lex_reset` defines for the platform. -/
  platform : List Text
  lexDefine : Text → Text → Program World Unit
  parseargv : List Text → Program World Nat

variable (compiler : Compiler World)

def setCwd (s : Text) : Program World Unit := do
  let cwd ← xstrdup out s
  let c ← config
  setConfig { c with cwd := cwd }

def definePlatform : List Text → Program World Unit
  | [] => pure ()
  | name :: names => do
    compiler.lexDefine name (text "1")
    definePlatform names

def resetConfig (c : Config) : Config :=
  { c with
    verbose := false
    keep := false
    shared := false
    archive := false
    useHints := true
    useAsm := true
    usePic := true
    useExceptions := true
    useStackProtector := true
    strictFnptr := true
    exePrefix := 0
    exePrefixTail := 0
    exePrefixVisibleTail := 0
    ppDepth := 0
    ppBraceDepth := 0
    ppParenDepth := 0
    ppBracketDepth := 0
    exeSerial := 0 }

def lexStart : Program World Unit := do
  let cwd ← outside out.getcwd
  if cwd.1 = 0 then setCwd out (text ".")
  else .within ⟨.free, cwd.1⟩ (setCwd out cwd.2)
  definePlatform compiler compiler.platform

def lexReset : Program World Unit := do
  clearConfig
  let c ← config
  setConfig (resetConfig c)
  lexStart out compiler

def call (argv : List Text) : Program World Nat := do
  lexReset out compiler
  compiler.parseargv argv

inductive Ending where
  | returned (rc : Nat)
  | exited
  deriving DecidableEq, Repr

def started (p : Process World) : Process World :=
  { p with cc := { p.cc with error := [], errorActive := true } }

/-- The end of `aholyc_parseargv`, reached by a return or by a jump. -/
def finish : Except Leave Nat × Process World → Ending × Process World
  | (.ok rc, p) => (.returned rc, { p with cc := { p.cc with errorActive := false } })
  | (.error .longjmp, p) => (.returned 1, { p with cc := { p.cc with errorActive := false } })
  | (.error .exit, p) => (.exited, p)

def aholycParseargv (argv : List Text) (p : Process World) : Ending × Process World :=
  finish ((call out compiler argv).run (handler out) (started p))

def zeroConfig : Config :=
  ⟨0, 0, 0, 0, 0, 0, ⟨0, 0, 0⟩, 0, 0, 0, 0, 0, false, false, false, false, false, false, false, false,
    false, false⟩

def aholycInit : Instance :=
  ⟨[], zeroConfig, out.stderr, List.replicate 8 zeroCleanup, 0, [], false⟩

def Process.fresh (world : World) : Process World := ⟨aholycInit out, false, false, world, [], []⟩

inductive Reached : Process World → Prop where
  | fresh (world : World) : Reached (.fresh out world)
  | call {p : Process World} (earlier : Reached p) (argv : List Text) :
      Reached (aholycParseargv out compiler argv p).2
  /-- Something else of the process takes place between two calls. -/
  | elsewhere {p : Process World} (earlier : Reached p) (step : World → World) :
      Reached { p with world := step p.world }

end Aholyc.Driver
