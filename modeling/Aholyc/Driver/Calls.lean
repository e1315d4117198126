import Aholyc.Driver.Instance

/-!
# Calls of one instance (src/aholyc.c, src/util.c, src/lex.c)

However an earlier call has ended, the next one sets every field that the compiler
reads, and no cleanup of the earlier one is left. What does stay is the state of the
standard streams, which no call resets.
-/

namespace Aholyc.Driver

open Aholyc.Lib List

variable {World : Type} {out : Outside World} {compiler : Compiler World}

/-! ## Cleanups -/

variable (out) in
/-- In a call, with the cleanups that are pending, the last one first. -/
structure Pending (scopes : List AholyCleanup) (p : Process World) : Prop where
  entries : p.cc.cleanups.length = 8
  count : p.cc.ncleanups = scopes.length
  live : p.cc.cleanups.take scopes.length = scopes.reverse
  active : p.cc.errorActive = true
  stream : p.cc.diagnostics = out.stderr
  blocks : 0 ∉ p.cc.allocs
  /-- Every cleanup that has been registered has been run once or is pending. -/
  accounts : p.pushed.Perm (p.ran ++ scopes)

variable {scopes : List AholyCleanup} {c : AholyCleanup}

theorem Pending.report {p : Process World} (pending : Pending out scopes p) (tok : Option Place)
    (level msg : Text) : Pending out scopes (report out tok level msg p) :=
  ⟨pending.entries, pending.count, pending.live, pending.active, pending.stream, pending.blocks,
    pending.accounts⟩

theorem Pending.run {p : Process World} (pending : Pending out (c :: scopes) p) : Pending out scopes
      (callCleanup out c { p with cc := { p.cc with ncleanups := scopes.length } }) := by
  have live := pending.live
  rw [List.length_cons, List.reverse_cons] at live
  have shorter := congrArg (List.take scopes.length) live
  rw [List.take_take, Nat.min_eq_left (Nat.le_succ _), ← List.length_reverse,
    List.take_left] at shorter
  rw [List.length_reverse] at shorter
  refine ⟨pending.entries, rfl, shorter, pending.active, pending.stream, pending.blocks, ?_⟩
  have accounts := pending.accounts
  rw [List.append_cons] at accounts
  exact accounts

theorem Pending.last {p : Process World} (pending : Pending out (c :: scopes) p) :
    p.cc.cleanups.getD scopes.length zeroCleanup = c := by
  have live : (p.cc.cleanups.take (c :: scopes).length)[scopes.length]? = _ :=
    congrArg (fun l => l[scopes.length]?) pending.live
  rw [List.length_cons, List.getElem?_take, if_pos (Nat.lt_succ_self _), List.reverse_cons,
    List.getElem?_append_right (Nat.le_of_eq List.length_reverse), List.length_reverse,
    Nat.sub_self] at live
  rw [List.getD_eq_getElem?_getD, live]
  rfl

theorem Pending.cleanupLoop {p : Process World} (pending : Pending out scopes p) :
    Pending out [] (cleanupLoop out scopes.length p) := by
  induction scopes generalizing p with
  | nil => exact pending
  | cons c scopes ih =>
    rw [List.length_cons, Driver.cleanupLoop, pending.last]
    exact ih pending.run

def Jumped (out : Outside World) (e : Leave) (p : Process World) : Prop :=
  e = .longjmp ∧ Pending out [] p

theorem Pending.error {α : Type} {p : Process World} (pending : Pending out scopes p)
    (tok : Option Place) (msg : Text) :
    ∃ p', error out tok msg p = ((.error .longjmp : Except Leave α), p') ∧ Pending out [] p' := by
  have reported := pending.report tok (text "error") msg
  have ended := reported.cleanupLoop
  rw [← reported.count] at ended
  refine ⟨_, ?_, ended⟩
  unfold Driver.error halt cleanupAll
  dsimp only
  rw [if_pos ended.active]

theorem Pending.fails {α : Type} {p : Process World} (pending : Pending out scopes p)
    (tok : Option Place) (msg : Text) :
    Handler.After (Pending out scopes) (Jumped out) (Driver.error (α := α) out tok msg p) := by
  obtain ⟨p', isError, ended⟩ := pending.error (α := α) tok msg
  rw [isError]
  exact ⟨rfl, ended⟩

theorem freeLoop_subset (mark : Addr) (allocs : List Addr) (world : World) :
    (freeLoop out mark allocs world).1 ⊆ allocs := by
  induction allocs generalizing world with
  | nil => exact List.Subset.refl _
  | cons a allocs ih =>
    rw [freeLoop]
    split
    · exact List.Subset.refl _
    · exact List.subset_cons_of_subset _ (ih _)

theorem Pending.xmalloc {p : Process World} (pending : Pending out scopes p) (n : Nat) :
    Handler.After (Pending out scopes) (Jumped out) (xmalloc out n p) := by
  unfold Driver.xmalloc
  dsimp only
  generalize (if n = 0 then 1 else n) = size
  split
  · exact pending.fails none _
  split
  · apply Pending.fails
    exact ⟨pending.entries, pending.count, pending.live, pending.active, pending.stream,
      pending.blocks, pending.accounts⟩
  next notNull =>
    refine ⟨pending.entries, pending.count, pending.live, pending.active, pending.stream, ?_,
      pending.accounts⟩
    intro member
    rw [List.mem_cons] at member
    cases member with
    | inl null => exact notNull null.symm
    | inr old => exact pending.blocks old

theorem Pending.exec {α : Type} {p : Process World} (pending : Pending out scopes p)
    (op : Op World α) : Handler.After (Pending out scopes) (Jumped out) (exec out op p) := by
  have other (q : Process World) (sameCc : q.cc.cleanups = p.cc.cleanups ∧
      q.cc.ncleanups = p.cc.ncleanups ∧ q.cc.errorActive = p.cc.errorActive ∧
      q.cc.diagnostics = p.cc.diagnostics) (subset : q.cc.allocs ⊆ p.cc.allocs)
      (samePushed : q.pushed = p.pushed) (sameRan : q.ran = p.ran) : Pending out scopes q := by
    refine ⟨?_, ?_, ?_, ?_, ?_, fun member => pending.blocks (subset member), ?_⟩
    · rw [sameCc.1, pending.entries]
    · rw [sameCc.2.1, pending.count]
    · rw [sameCc.1, pending.live]
    · rw [sameCc.2.2.1, pending.active]
    · rw [sameCc.2.2.2, pending.stream]
    · rw [samePushed, sameRan]
      exact pending.accounts
  cases op with
  | config => exact pending
  | setConfig c => exact other _ ⟨rfl, rfl, rfl, rfl⟩ (List.Subset.refl _) rfl rfl
  | mark => exact pending
  | xmalloc n => exact pending.xmalloc n
  | xfreeTo mark => exact other _ ⟨rfl, rfl, rfl, rfl⟩ (freeLoop_subset mark _ _) rfl rfl
  | error tok msg => exact pending.fails tok msg
  | warnTok tok msg => exact other _ ⟨rfl, rfl, rfl, rfl⟩ (List.Subset.refl _) rfl rfl
  | fread size =>
    apply other (fread out size p).2
    all_goals unfold fread
    all_goals split
    all_goals simp
  | fwrite data => exact other _ ⟨rfl, rfl, rfl, rfl⟩ (List.Subset.refl _) rfl rfl
  | ferror => exact pending
  | outside step => exact other _ ⟨rfl, rfl, rfl, rfl⟩ (List.Subset.refl _) rfl rfl

/-- A cleanup is registered, or run and reported if there is no place for it. -/
theorem Pending.cleanupPush {p : Process World} (pending : Pending out scopes p) (c : AholyCleanup) :
    Handler.After (Pending out (c :: scopes)) (Jumped out) (cleanupPush out c p) := by
  unfold Driver.cleanupPush
  dsimp only
  split
  · have ran : Pending out scopes (callCleanup out c { p with pushed := p.pushed ++ [c] }) := by
      refine ⟨pending.entries, pending.count, pending.live, pending.active, pending.stream,
        pending.blocks, ?_⟩
      have accounts := pending.accounts.append_right [c]
      apply accounts.trans
      change (p.ran ++ scopes ++ [c]).Perm (p.ran ++ [c] ++ scopes)
      rw [List.append_assoc, List.append_assoc]
      exact List.perm_append_comm.append_left p.ran
    obtain ⟨p', isError, ended⟩ := ran.error (α := Unit) none (text "too many pending cleanups")
    rw [isError]
    exact ⟨rfl, ended⟩
  · next free =>
      have place : scopes.length < 8 := by
        have bound := congrArg List.length pending.live
        rw [List.length_take, List.length_reverse, pending.entries] at bound
        have count := pending.count
        omega
      refine ⟨?_, ?_, ?_, pending.active, pending.stream, pending.blocks, ?_⟩
      · exact List.length_set.trans pending.entries
      · exact congrArg (· + 1) pending.count
      · dsimp only
        rw [pending.count, List.length_cons, List.reverse_cons, ← pending.live,
          List.take_add_one, List.take_set_of_le (Nat.le_refl _), List.getElem?_set_self
            (by rw [pending.entries]; exact place)]
        rfl
      · have accounts := pending.accounts.append_right [c]
        apply accounts.trans
        rw [List.append_assoc]
        exact List.perm_append_comm.append_left p.ran

theorem Pending.leave {p : Process World} (pending : Pending out (c :: scopes) p) :
    Pending out scopes ((handler out).leave c p) := by
  have isPop : cleanupPop p = { p with cc := { p.cc with ncleanups := scopes.length } } := by
    unfold cleanupPop
    rw [pending.count]
    rfl
  change Pending out scopes (callCleanup out c (cleanupPop p))
  rw [isPop]
  exact pending.run

theorem handler_keeps : (handler out).Keeps (Pending out) (Jumped out) where
  exec_ok {α op scopes s s' value} pending ran := by
    have ends := pending.exec op
    rw [show Driver.exec out op s = _ from ran] at ends
    exact ends
  exec_error {α op scopes s s' e} pending ran := by
    have ends := pending.exec op
    rw [show Driver.exec out op s = _ from ran] at ends
    exact ends
  enter_ok {c scopes s s'} pending ran := by
    have ends := pending.cleanupPush c
    rw [show Driver.cleanupPush out c s = _ from ran] at ends
    exact ends
  enter_error {c scopes s s' e} pending ran := by
    have ends := pending.cleanupPush c
    rw [show Driver.cleanupPush out c s = _ from ran] at ends
    exact ends
  leave pending := pending.leave

/-! ## Between two calls -/

structure Idle (out : Outside World) (p : Process World) : Prop where
  entries : p.cc.cleanups.length = 8
  count : p.cc.ncleanups = 0
  stream : p.cc.diagnostics = out.stderr
  blocks : 0 ∉ p.cc.allocs
  accounts : p.pushed.Perm p.ran

theorem Idle.started {p : Process World} (idle : Idle out p) : Pending out [] (started p) := by
  refine ⟨idle.entries, idle.count, rfl, rfl, idle.stream, idle.blocks, ?_⟩
  rw [List.append_nil]
  exact idle.accounts

theorem Pending.idle {p : Process World} (pending : Pending out [] p) :
    Idle out { p with cc := { p.cc with errorActive := false } } := by
  have accounts := pending.accounts
  rw [List.append_nil] at accounts
  exact ⟨pending.entries, pending.count, pending.stream, pending.blocks, accounts⟩

theorem idle_fresh (world : World) : Idle out (.fresh out world) :=
  ⟨rfl, rfl, rfl, List.not_mem_nil, List.Perm.refl _⟩

variable (compiler) in
/-- A call returns, and leaves the instance as idle as it was. -/
theorem aholycParseargv_idle {p : Process World} (idle : Idle out p) (argv : List Text) :
    ∃ rc p', aholycParseargv out compiler argv p = (.returned rc, p') ∧ Idle out p' := by
  have ends := handler_keeps.run (call out compiler argv) idle.started
  unfold aholycParseargv
  generalize (call out compiler argv).run (handler out) (started p) = result at ends ⊢
  obtain ⟨answer, p'⟩ := result
  cases answer with
  | ok rc => exact ⟨rc, _, rfl, Pending.idle ends⟩
  | error e =>
    obtain ⟨isJump, ended⟩ := ends
    subst isJump
    exact ⟨1, _, rfl, ended.idle⟩

theorem Reached.idle {p : Process World} (reached : Reached out compiler p) : Idle out p := by
  induction reached with
  | fresh world => exact idle_fresh world
  | call earlier argv ih =>
    obtain ⟨rc, p', isCall, idle⟩ := aholycParseargv_idle compiler ih argv
    rw [isCall]
    exact idle
  | elsewhere earlier step ih =>
    exact ⟨ih.entries, ih.count, ih.stream, ih.blocks, ih.accounts⟩

/-! ## What a program can see -/

/-- Two processes that differ in what lies behind the pending cleanups, and perhaps in the
indicators of the standard streams. -/
structure Alike (stdin stdout : Prop) (p q : Process World) : Prop where
  allocs : p.cc.allocs = q.cc.allocs
  config : p.cc.config = q.cc.config
  diagnostics : p.cc.diagnostics = q.cc.diagnostics
  error : p.cc.error = q.cc.error
  active : p.cc.errorActive = q.cc.errorActive
  count : p.cc.ncleanups = q.cc.ncleanups
  entries : p.cc.cleanups.length = q.cc.cleanups.length
  live : p.cc.cleanups.take p.cc.ncleanups = q.cc.cleanups.take p.cc.ncleanups
  world : p.world = q.world
  stdin : stdin → p.stdinEof = q.stdinEof
  stdout : stdout → p.stdoutError = q.stdoutError

variable {stdin stdout : Prop} {p q : Process World}

theorem Alike.report (same : Alike stdin stdout p q) (tok : Option Place) (level msg : Text) :
    Alike stdin stdout (report out tok level msg p) (report out tok level msg q) := by
  refine ⟨same.allocs, same.config, same.diagnostics, rfl, same.active, same.count, same.entries,
    same.live, ?_, same.stdin, same.stdout⟩
  unfold Driver.report
  dsimp only
  rw [same.diagnostics, same.world]

theorem Alike.callCleanup (same : Alike stdin stdout p q) (c : AholyCleanup) :
    Alike stdin stdout (callCleanup out c p) (callCleanup out c q) := by
  refine ⟨same.allocs, same.config, same.diagnostics, same.error, same.active, same.count,
    same.entries, same.live, ?_, same.stdin, same.stdout⟩
  unfold Driver.callCleanup
  dsimp only
  rw [same.world]

theorem Alike.fewer (same : Alike stdin stdout p q) {n : Nat} (less : n ≤ p.cc.ncleanups) :
    Alike stdin stdout { p with cc := { p.cc with ncleanups := n } }
      { q with cc := { q.cc with ncleanups := n } } := by
  refine ⟨same.allocs, same.config, same.diagnostics, same.error, same.active, rfl,
    same.entries, ?_, same.world, same.stdin, same.stdout⟩
  have shorter := congrArg (List.take n) same.live
  rw [List.take_take, List.take_take, Nat.min_eq_left less] at shorter
  exact shorter

theorem Alike.cleanupLoop {n : Nat} (same : Alike stdin stdout p q) (isCount : p.cc.ncleanups = n) :
    Alike stdin stdout (cleanupLoop out n p) (cleanupLoop out n q) := by
  induction n generalizing p q with
  | zero => exact same
  | succ n ih =>
    have entry : p.cc.cleanups[n]? = q.cc.cleanups[n]? := by
      have live := congrArg (fun l => l[n]?) same.live
      rw [isCount] at live
      simpa using live
    rw [Driver.cleanupLoop, Driver.cleanupLoop, List.getD_eq_getElem?_getD,
      List.getD_eq_getElem?_getD, entry]
    exact ih ((same.fewer (by omega)).callCleanup _) rfl

theorem Alike.failed {α : Type} (same : Alike stdin stdout p q) (tok : Option Place) (msg : Text) :
    Handler.Agree (Alike stdin stdout) (Driver.error (α := α) out tok msg p)
      (Driver.error out tok msg q) := by
  have reported : Alike stdin stdout (Driver.report out tok (text "error") msg p)
      (Driver.report out tok (text "error") msg q) := same.report tok _ msg
  have ended : Alike stdin stdout (Driver.cleanupLoop out _ _) (Driver.cleanupLoop out _ _) :=
    reported.cleanupLoop rfl
  have isCount := reported.count
  unfold Driver.error halt cleanupAll
  rw [← isCount]
  dsimp only
  refine ⟨?_, ended⟩
  rw [ended.active]

/-- Operations that may be used, if the indicators need not be the same. -/
def Allowed (stdin stdout : Prop) {α : Type} : Op World α → Prop
  | .fread _ => stdin
  | .ferror => stdout
  | _ => True

theorem Alike.xmalloc (same : Alike stdin stdout p q) (n : Nat) :
    Handler.Agree (Alike stdin stdout) (xmalloc out n p) (xmalloc out n q) := by
  unfold Driver.xmalloc
  dsimp only
  generalize (if n = 0 then 1 else n) = size
  rw [← same.world]
  by_cases large : size > sizeMax - headerSize
  · rw [if_pos large, if_pos large]
    exact same.failed none _
  rw [if_neg large, if_neg large]
  by_cases null : (out.malloc (headerSize + size) p.world).1 = 0
  · rw [if_pos null, if_pos null]
    apply Alike.failed
    exact ⟨same.allocs, same.config, same.diagnostics, same.error, same.active, same.count,
      same.entries, same.live, rfl, same.stdin, same.stdout⟩
  · rw [if_neg null, if_neg null]
    exact ⟨rfl, congrArg (List.cons _) same.allocs, same.config, same.diagnostics, same.error, same.active,
      same.count, same.entries, same.live, rfl, same.stdin, same.stdout⟩

theorem Alike.xfreeTo (same : Alike stdin stdout p q) (mark : Addr) :
    Alike stdin stdout (xfreeTo out mark p) (xfreeTo out mark q) := by
  unfold Driver.xfreeTo
  rw [← same.allocs, ← same.world]
  exact ⟨rfl, same.config, same.diagnostics, same.error, same.active, same.count, same.entries,
    same.live, rfl, same.stdin, same.stdout⟩

theorem Alike.fread (same : Alike stdin stdout p q) (use : stdin) (size : Nat) :
    (fread out size p).1 = (fread out size q).1 ∧
      Alike stdin stdout (fread out size p).2 (fread out size q).2 := by
  unfold Driver.fread
  rw [← same.stdin use, ← same.world]
  split
  · exact ⟨rfl, same⟩
  · exact ⟨rfl, same.allocs, same.config, same.diagnostics, same.error, same.active, same.count,
      same.entries, same.live, rfl, fun _ => rfl, same.stdout⟩

theorem Alike.fwrite (same : Alike stdin stdout p q) (data : Text) :
    (fwrite out data p).1 = (fwrite out data q).1 ∧
      Alike stdin stdout (fwrite out data p).2 (fwrite out data q).2 := by
  unfold Driver.fwrite
  rw [← same.world]
  refine ⟨rfl, same.allocs, same.config, same.diagnostics, same.error, same.active,
    same.count, same.entries, same.live, rfl, same.stdin, ?_⟩
  intro use
  dsimp only
  rw [same.stdout use]

theorem Alike.warnTok (same : Alike stdin stdout p q) (tok : Option Place) (msg : Text) :
    Alike stdin stdout (warnTok out tok msg p) (warnTok out tok msg q) := by
  refine ⟨same.allocs, same.config, same.diagnostics, same.error, same.active,
    same.count, same.entries, same.live, ?_, same.stdin, same.stdout⟩
  unfold Driver.warnTok
  dsimp only
  rw [same.diagnostics, same.world]

theorem Alike.exec {α : Type} {op : Op World α} (allowed : Allowed stdin stdout op)
    (same : Alike stdin stdout p q) :
    Handler.Agree (Alike stdin stdout) (exec out op p) (exec out op q) := by
  cases op with
  | config => exact ⟨congrArg Except.ok same.config, same⟩
  | setConfig c =>
    exact ⟨rfl, same.allocs, rfl, same.diagnostics, same.error, same.active, same.count,
      same.entries, same.live, same.world, same.stdin, same.stdout⟩
  | mark => exact ⟨congrArg (fun allocs : List Addr => Except.ok (allocs.headD 0)) same.allocs, same⟩
  | xmalloc n => exact same.xmalloc n
  | xfreeTo mark => exact ⟨rfl, same.xfreeTo mark⟩
  | error tok msg => exact same.failed tok msg
  | warnTok tok msg => exact ⟨rfl, same.warnTok tok msg⟩
  | fread size =>
    have read : (Driver.fread out size p).1 = (Driver.fread out size q).1 ∧ _ :=
      same.fread allowed size
    exact ⟨congrArg Except.ok read.1, read.2⟩
  | fwrite data =>
    have written : (Driver.fwrite out data p).1 = (Driver.fwrite out data q).1 ∧ _ :=
      same.fwrite data
    exact ⟨congrArg Except.ok written.1, written.2⟩
  | ferror => exact ⟨congrArg Except.ok (same.stdout allowed), same⟩
  | outside step =>
    exact ⟨congrArg (fun world => Except.ok (step world).1) same.world, same.allocs, same.config,
      same.diagnostics, same.error, same.active, same.count, same.entries, same.live,
      congrArg (fun world => (step world).2) same.world, same.stdin, same.stdout⟩

theorem Alike.cleanupPush (same : Alike stdin stdout p q) (c : AholyCleanup) :
    Handler.Agree (Alike stdin stdout) (cleanupPush out c p) (cleanupPush out c q) := by
  have pushed : Alike stdin stdout { p with pushed := p.pushed ++ [c] }
      { q with pushed := q.pushed ++ [c] } :=
    ⟨same.allocs, same.config, same.diagnostics, same.error, same.active, same.count,
      same.entries, same.live, same.world, same.stdin, same.stdout⟩
  unfold Driver.cleanupPush
  dsimp only
  rw [← same.count]
  by_cases full : p.cc.ncleanups = 8
  · rw [if_pos full, if_pos full]
    exact (pushed.callCleanup c).failed none _
  rw [if_neg full, if_neg full]
  refine ⟨rfl, same.allocs, same.config, same.diagnostics, same.error, same.active, rfl,
    ?_, ?_, same.world, same.stdin, same.stdout⟩
  · rw [List.length_set, List.length_set, same.entries]
  · dsimp only
    rw [List.take_add_one, List.take_add_one, List.take_set_of_le (Nat.le_refl _),
      List.take_set_of_le (Nat.le_refl _), same.live, List.getElem?_set, List.getElem?_set,
      same.entries, if_pos rfl, if_pos rfl]

theorem Alike.leave (same : Alike stdin stdout p q) (c : AholyCleanup) :
    Alike stdin stdout ((handler out).leave c p) ((handler out).leave c q) := by
  have popped := same.fewer (Nat.sub_le p.cc.ncleanups 1)
  have isPop : cleanupPop q = { q with cc := { q.cc with ncleanups := p.cc.ncleanups - 1 } } := by
    unfold cleanupPop
    rw [same.count]
  change Alike stdin stdout (Driver.callCleanup out c (cleanupPop p))
    (Driver.callCleanup out c (cleanupPop q))
  rw [isPop]
  exact popped.callCleanup c

theorem handler_blind (stdin stdout : Prop) :
    (handler out).Blind (Alike stdin stdout) (Allowed stdin stdout) where
  exec allowed same := same.exec allowed
  enter same := same.cleanupPush _
  leave same := same.leave _

/-! ## The next call -/

def startConfig : Config := resetConfig zeroConfig

variable (out) in
def cleared (p : Process World) : Process World :=
  { started p with
    cc := { (started p).cc with
      allocs := (freeLoop out 0 p.cc.allocs p.world).1
      config := startConfig }
    world := (freeLoop out 0 p.cc.allocs p.world).2 }

theorem lexReset_run (p : Process World) : (lexReset out compiler).run (handler out) (started p) =
    (lexStart out compiler).run (handler out) (cleared out p) := by
  rfl

theorem call_run (argv : List Text) (p : Process World) :
    (call out compiler argv).run (handler out) (started p) =
      (lexStart out compiler >>= fun _ => compiler.parseargv argv).run (handler out)
        (cleared out p) := by
  unfold call
  rw [Prog.run_bind, Prog.run_bind, lexReset_run]

theorem freeLoop_all {allocs : List Addr} (blocks : 0 ∉ allocs) (world : World) :
    (freeLoop out 0 allocs world).1 = [] := by
  induction allocs generalizing world with
  | nil => rfl
  | cons a allocs ih =>
    rw [List.mem_cons, not_or] at blocks
    rw [freeLoop, if_neg (fun same => blocks.1 same.symm)]
    exact ih blocks.2 _

variable (out compiler) in
/-- The indicators of the standard streams do not matter: a stream's is clear, or the call does
not read from `stdin`, or does not ask for the state of `stdout`. -/
structure Clear (argv : List Text) (p : Process World) : Prop where
  stdin : p.stdinEof = false ∨ (call out compiler argv).Only fun op => Allowed False True op
  stdout : p.stdoutError = false ∨ (call out compiler argv).Only fun op => Allowed True False op

theorem Clear.only {argv : List Text} (clear : Clear out compiler argv p) :
    (call out compiler argv).Only fun op =>
      Allowed (p.stdinEof = false) (p.stdoutError = false) op := by
  have stdin : (call out compiler argv).Only fun op => Allowed (p.stdinEof = false) True op := by
    cases clear.stdin with
    | inl isClear =>
      apply (Prog.only_any _).mono
      intro α op _
      cases op
      all_goals first | exact isClear | trivial
    | inr never =>
      apply never.mono
      intro α op allowed
      cases op
      all_goals trivial
  have stdout : (call out compiler argv).Only fun op => Allowed True (p.stdoutError = false) op := by
    cases clear.stdout with
    | inl isClear =>
      apply (Prog.only_any _).mono
      intro α op _
      cases op
      all_goals first | exact isClear | trivial
    | inr never =>
      apply never.mono
      intro α op allowed
      cases op
      all_goals trivial
  apply (stdin.and stdout).mono
  intro α op both
  cases op
  all_goals first | exact both.1 | exact both.2

/-- What a call does for its caller: how it ends, the text of `aholyc_error`, the instance that it
leaves, and the world. -/
structure Seen (World : Type) where
  ending : Ending
  error : Text
  config : Config
  allocs : List Addr
  world : World

def seen (result : Ending × Process World) : Seen World :=
  ⟨result.1, result.2.cc.error, result.2.cc.config, result.2.cc.allocs, result.2.world⟩

theorem finish_seen {one two : Except Leave Nat × Process World}
    (agree : Handler.Agree (Alike stdin stdout) one two) :
    seen (finish one) = seen (finish two) := by
  obtain ⟨answer, p⟩ := one
  obtain ⟨answer', q⟩ := two
  obtain ⟨isAnswer, same⟩ := agree
  cases isAnswer
  unfold seen
  cases answer with
  | ok rc =>
    unfold finish
    dsimp only at same ⊢
    rw [same.error, same.config, same.allocs, same.world]
  | error e =>
    cases e with
    | longjmp =>
      unfold finish
      dsimp only at same ⊢
      rw [same.error, same.config, same.allocs, same.world]
    | exit =>
      unfold finish
      dsimp only at same ⊢
      rw [same.error, same.config, same.allocs, same.world]

variable (out) in
def released (p : Process World) : World := (freeLoop out 0 p.cc.allocs p.world).2

theorem cleared_alike (idle : Idle out p) :
    Alike (p.stdinEof = false) (p.stdoutError = false) (cleared out p)
      (cleared out (.fresh out (released out p))) := by
  refine ⟨freeLoop_all idle.blocks _, rfl, idle.stream, rfl, rfl, idle.count, idle.entries, ?_, rfl,
    id, id⟩
  have none : (cleared out p).cc.ncleanups = 0 := idle.count
  rw [none]
  rfl

/-- After any number of calls, whatever they did and wherever they failed, the next one returns,
does what it would do as the first one of a process, and every cleanup has been run once, unless
a standard stream's indicator is set that it looks at. -/
theorem aholycParseargv_starts_clean {p : Process World} (reached : Reached out compiler p)
    (argv : List Text) (clear : Clear out compiler argv p) :
    seen (aholycParseargv out compiler argv p) =
      seen (aholycParseargv out compiler argv (.fresh out (released out p))) ∧
    (∃ rc, (aholycParseargv out compiler argv p).1 = .returned rc) ∧
    (aholycParseargv out compiler argv p).2.cc.ncleanups = 0 ∧
    (aholycParseargv out compiler argv p).2.pushed.Perm
      (aholycParseargv out compiler argv p).2.ran := by
  obtain ⟨rc, p', isCall, idle⟩ := aholycParseargv_idle compiler reached.idle argv
  have only := clear.only
  have onlyRest : (lexStart out compiler >>= fun _ => compiler.parseargv argv).Only fun op =>
      Allowed (p.stdinEof = false) (p.stdoutError = false) op :=
    ⟨((only.1.2 ()).2 zeroConfig).2 (), only.2⟩
  refine ⟨?_, ?_⟩
  · unfold aholycParseargv
    rw [call_run, call_run]
    exact finish_seen ((handler_blind _ _).run onlyRest (cleared_alike reached.idle))
  · rw [isCall]
    exact ⟨⟨rc, rfl⟩, idle.count, idle.accounts⟩

/-- A system with the next free address, and whether what is behind `stdout` takes the next
bytes. -/
def pipe : Outside (Addr × List Bool) where
  stderr := 2
  malloc n world := (world.1, world.1 + n, world.2)
  free _ world := world
  fclose _ world := world
  dlclose _ world := world
  store _ _ world := world
  getcwd world := ((world.1, text "/tmp"), world.1 + 5, world.2)
  fprintf _ _ world := world
  fopen _ world := (world.1, world)
  fwrite _ _ world := (true, world)
  closed _ := true
  read _ world := (([], true), world)
  write _ world := (world.2.headD true, world.1, world.2.tail)

def emitter : Compiler (Addr × List Bool) where
  platform := [text "IS_LINUX"]
  lexDefine name _ := do
    let entry ← .perform (.xmalloc name.length)
    let c ← config
    setConfig { c with macros := entry }
  parseargv argv :=
    if argv = [] then do
      writeFile pipe (text "-") (text "int main;")
      pure 0
    else .within ⟨.cleanupFile, 3⟩ (fail (text "expected expression"))

/-- A process whose first call has failed while it had a file open. -/
def failed : Process (Addr × List Bool) :=
  (aholycParseargv pipe emitter [text "bad.HC"] (.fresh pipe (4096, []))).2

theorem aholycParseargv_starts_clean_emitter :
    (failed.cc.allocs ≠ [] ∧ failed.cc.config.macros ≠ 0 ∧ failed.cc.error ≠ [] ∧
      failed.ran ≠ []) ∧
    seen (aholycParseargv pipe emitter [] failed) =
      seen (aholycParseargv pipe emitter [] (.fresh pipe (released pipe failed))) ∧
    (∃ rc, (aholycParseargv pipe emitter [] failed).1 = .returned rc) ∧
    (aholycParseargv pipe emitter [] failed).2.cc.ncleanups = 0 ∧
    (aholycParseargv pipe emitter [] failed).2.pushed.Perm
      (aholycParseargv pipe emitter [] failed).2.ran :=
  ⟨by decide +kernel, aholycParseargv_starts_clean (.call (.fresh _) _) []
    ⟨Or.inl (by decide +kernel), Or.inl (by decide +kernel)⟩⟩

/-- The first call could not write to `stdout`; the second one can, and reports a failure. -/
theorem stdout_error_stays :
    Reached pipe emitter (aholycParseargv pipe emitter [] (.fresh pipe (4096, [false]))).2 ∧
    (aholycParseargv pipe emitter []
      (aholycParseargv pipe emitter [] (.fresh pipe (4096, [false]))).2).1 = .returned 1 ∧
    (aholycParseargv pipe emitter [] (.fresh pipe
      (released pipe (aholycParseargv pipe emitter []
        (.fresh pipe (4096, [false]))).2))).1 = .returned 0 :=
  ⟨.call (.fresh _) [], by decide +kernel, by decide +kernel⟩

end Aholyc.Driver
