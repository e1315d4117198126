import Aholyc.Lex.Lines
import Aholyc.Lib.Table

/-!
# The macro table (src/lexpp.c)

`#define`, `#undef` and `-D` work on one list of macros. An undefined macro stays in the list
with an empty name. A fault ends the whole run, with the table as it then is.
-/

namespace Aholyc.Lex

open Aholyc.Lib

abbrev Macro := Binding (List UInt8) (List Token)

abbrev Macros := List Macro

def findMacro (macros : Macros) (name : List UInt8) : Option Macro := findKey macros name

def behindOperands (dline : BitVec 32) (tokens : List Token) : List Token :=
  tokens.dropWhile fun b => b.kind != .eof && !b.atBol && b.line == dline

def define (dline : BitVec 32) (tokens : List Token) (macros : Macros) :
    Macros × Lexing (List Token) :=
  match tokens with
  | [] => (macros, outside)
  | n :: rest =>
    if n.kind ≠ .id then (macros, fail n.line "#define expects a name")
    else
      let cleared := put n.str [] macros
      (put n.str (operands dline rest) cleared, .ok (behindOperands dline rest))

def undef (tokens : List Token) (macros : Macros) : Macros × Lexing (List Token) :=
  match tokens with
  | [] => (macros, outside)
  | n :: rest =>
    if n.kind ≠ .id then (macros, fail n.line "#undef expects a name")
    else (kill [] n.str macros, .ok rest)

def valueTokens (cfg : Config) (value : List UInt8) : Lexing (List Token) :=
  if value.isEmpty then .ok []
  else do
    let tokens ← tokenize cfg (value ++ [0])
    return tokens.takeWhile (·.kind != .eof)

def lexDefine (cfg : Config) (name value : List UInt8) (macros : Macros) : Macros × Lexing Unit :=
  let cleared := put name [] macros
  match valueTokens cfg value with
  | .error stop => (cleared, .error stop)
  | .ok body => (put name body cleared, .ok ())

def lexIsIdentifier (s : List UInt8) : Bool :=
  s.head?.any identStart && s.all identCont && wordKind s == .id

def optionName (arg : List UInt8) : List UInt8 := arg.takeWhile (· != byte '=')

def optionValue (arg : List UInt8) : List UInt8 :=
  if byte '=' ∈ arg then (arg.dropWhile (· != byte '=')).tail else bytes "1"

def addDefine (cfg : Config) (arg : List UInt8) (macros : Macros) : Macros × Lexing Unit :=
  if !lexIsIdentifier (optionName arg) then
    (macros, .error (.error none "-D needs a non-reserved identifier as its macro name"))
  else lexDefine cfg (optionName arg) (optionValue arg) macros

/-! ## Sequences of operations -/

/-- There is no option that undefines a name. The macros of the platform are made like
`-D name=1`. -/
inductive Op
  | define (dline : BitVec 32) (tokens : List Token)
  | undef (tokens : List Token)
  | option (arg : List UInt8)

def Op.run (cfg : Config) (op : Op) (macros : Macros) : Macros × Lexing Unit :=
  match op with
  | .define dline tokens =>
    let (after, result) := Lex.define dline tokens macros
    (after, result.map fun _ => ())
  | .undef tokens =>
    let (after, result) := Lex.undef tokens macros
    (after, result.map fun _ => ())
  | .option arg => addDefine cfg arg macros

def runOps (cfg : Config) (macros : Macros) : List Op → Macros × Lexing Unit
  | [] => (macros, .ok ())
  | op :: ops =>
    match op.run cfg macros with
    | (after, .ok ()) => runOps cfg after ops
    | (after, .error stop) => (after, .error stop)

/-! ## What they change -/

def Op.change (cfg : Config) : Op → Option (Change (List UInt8) (List Token))
  | .define _ [] => none
  | .define dline (n :: rest) => some (.bind n.str (operands dline rest))
  | .undef [] => none
  | .undef (n :: _) => some (.unbind n.str)
  | .option arg =>
    match valueTokens cfg (optionValue arg) with
    | .error _ => none
    | .ok body => some (.bind (optionName arg) body)

section

variable {cfg : Config} {macros after : Macros} {op : Op} {name : List UInt8}

theorem lexDefine_ok {value : List UInt8} (ran : lexDefine cfg name value macros = (after, .ok ())) :
    ∃ body, valueTokens cfg value = .ok body ∧ after = put name body macros := by
  unfold lexDefine at ran
  cases isBody : valueTokens cfg value with
  | error stop =>
    rw [isBody] at ran
    cases ran
  | ok body =>
    rw [isBody] at ran
    injection ran with same _
    rw [put_put] at same
    exact ⟨body, rfl, same.symm⟩

theorem Op.run_ok (ran : op.run cfg macros = (after, .ok ())) :
    ∃ change, op.change cfg = some change ∧ after = change.apply [] macros := by
  cases op with
  | define dline tokens =>
    cases tokens with
    | nil => cases ran
    | cons n rest =>
      unfold Op.run Lex.define at ran
      dsimp only at ran
      split at ran
      · cases ran
      · injection ran with same _
        rw [put_put] at same
        exact ⟨_, rfl, same.symm⟩
  | undef tokens =>
    cases tokens with
    | nil => cases ran
    | cons n rest =>
      unfold Op.run Lex.undef at ran
      dsimp only at ran
      split at ran
      · cases ran
      · injection ran with same _
        exact ⟨_, rfl, same.symm⟩
  | option arg =>
    unfold Op.run at ran
    dsimp only at ran
    unfold addDefine at ran
    split at ran
    · cases ran
    · obtain ⟨body, isBody, same⟩ := lexDefine_ok ran
      refine ⟨.bind (optionName arg) body, ?_, same⟩
      unfold Op.change
      dsimp only
      rw [isBody]

/-- An operation that fails leaves the table alone, or clears the name of its option. -/
theorem Op.run_error {stop : Stop} (ran : op.run cfg macros = (after, .error stop)) :
    after = macros ∨ ∃ arg, op = .option arg ∧ lexIsIdentifier (optionName arg) = true ∧
      valueTokens cfg (optionValue arg) = .error stop ∧
        after = put (optionName arg) [] macros := by
  cases op with
  | define dline tokens =>
    cases tokens with
    | nil =>
      injection ran with same _
      exact .inl same.symm
    | cons n rest =>
      unfold Op.run Lex.define at ran
      dsimp only at ran
      split at ran
      · injection ran with same _
        exact .inl same.symm
      · cases ran
  | undef tokens =>
    cases tokens with
    | nil =>
      injection ran with same _
      exact .inl same.symm
    | cons n rest =>
      unfold Op.run Lex.undef at ran
      dsimp only at ran
      split at ran
      · injection ran with same _
        exact .inl same.symm
      · cases ran
  | option arg =>
    unfold Op.run at ran
    dsimp only at ran
    unfold addDefine at ran
    split at ran
    · injection ran with same _
      exact .inl same.symm
    next valid =>
    rw [Bool.not_eq_true, Bool.not_eq_false'] at valid
    unfold lexDefine at ran
    split at ran
    · next stop' isError =>
      injection ran with same sameStop
      injection sameStop with sameStop
      rw [sameStop] at isError
      exact .inr ⟨arg, rfl, valid, isError, same.symm⟩
    · cases ran

/-! ## The table of a run -/

def changes (cfg : Config) (ops : List Op) : List (Change (List UInt8) (List Token)) :=
  ops.filterMap (Op.change cfg)

theorem runOps_ok {ops : List Op} (ran : runOps cfg macros ops = (after, .ok ())) :
    after = (changes cfg ops).foldl (Change.apply []) macros := by
  induction ops generalizing macros with
  | nil =>
    injection ran with same _
    exact same.symm
  | cons op ops ih =>
    unfold runOps at ran
    split at ran
    · next mid isRun =>
      obtain ⟨change, isChange, same⟩ := Op.run_ok isRun
      unfold changes
      rw [List.filterMap_cons_some isChange, List.foldl_cons, ← same]
      exact ih ran
    · cases ran

end

/-- What a table is after the operations: a map to the bodies of the last definitions, with one
entry for each name. An operation that fails on it leaves it as it is, save for an option with
a value that is no tokens: its name then has an empty body. -/
structure IsMap (cfg : Config) (ops : List Op) (macros : Macros) : Prop where
  lookup : ∀ name body, name ≠ [] →
    (findMacro macros name = some ⟨name, body⟩ ↔ Latest (changes cfg ops) name body)
  live : (liveKeys [] macros).Nodup
  removal : ∀ n rest after, (Op.undef (n :: rest)).run cfg macros = (after, .ok ()) →
    ∀ name, name ≠ [] → name ≠ n.str → findMacro after name = findMacro macros name
  failed : ∀ (op : Op) after stop, op.run cfg macros = (after, .error stop) →
    after = macros ∨ ∃ arg, op = .option arg ∧ valueTokens cfg (optionValue arg) = .error stop ∧
      findMacro after (optionName arg) = some ⟨optionName arg, []⟩ ∧
        ∀ name, name ≠ optionName arg → findMacro after name = findMacro macros name

theorem macros_isMap (cfg : Config) (ops : List Op) (macros : Macros)
    (ran : runOps cfg [] ops = (macros, .ok ())) : IsMap cfg ops macros := by
  have isTable := changes_table [] (changes cfg ops)
  have same := runOps_ok ran
  rw [← same] at isTable
  refine ⟨fun name body live => isTable.2 name body live, isTable.1, ?_, ?_⟩
  · intro n rest after undefined name live other
    obtain ⟨change, isChange, same⟩ := Op.run_ok undefined
    injection isChange with isChange
    rw [same, ← isChange]
    exact findKey_apply_other _ other live
  · intro op after stop failed
    rcases Op.run_error failed with unchanged | cleared
    · exact .inl unchanged
    · obtain ⟨arg, isOption, _, isError, cleared⟩ := cleared
      refine .inr ⟨arg, isOption, isError, ?_, ?_⟩
      · rw [cleared]
        exact findKey_put _ _ _
      · intro name other
        rw [cleared]
        exact findKey_put_other other

theorem macros_isMap_twice :
    IsMap noHints [.option (bytes "A=1"), .option (bytes "A")]
      [⟨bytes "A", [{ kind := .num, ival := 1, line := 1, atBol := true }]⟩] :=
  macros_isMap noHints _ _ (by decide +kernel)

/-- A `-D` that fails has cleared its name. -/
theorem failed_option_clears : ¬∀ cfg ops macros (op : Op) after stop,
    runOps cfg [] ops = (macros, .ok ()) → op.run cfg macros = (after, .error stop) →
      ∀ name, name ≠ [] → findMacro after name = findMacro macros name := by
  intro all
  have cleared : (Op.option (bytes "A=\"")).run noHints [] =
      ([⟨bytes "A", []⟩], .error (.error (some 1) "unterminated string")) := by decide +kernel
  have same := all noHints [] [] _ _ _ rfl cleared (bytes "A") (by decide)
  revert same
  decide

end Aholyc.Lex
