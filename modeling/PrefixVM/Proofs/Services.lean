import PrefixVM.Proofs.ConsoleText
import PrefixVM.Proofs.FileContents
import PrefixVM.Proofs.InternalFaults
import PrefixVM.Proofs.ThreadTable

/-!
What a failed service leaves behind. A thread takes several steps for a service, and others may take theirs in
between. None of its own steps changes what the threads share before the last question that can be answered by a
fault, with one exception: a service that answers with a result has done its work when it comes to store the
result, and a destination outside the memory fails it then.
-/
namespace PrefixVM

namespace Phase

/-- Phases of a service, from its request until the thread goes on or leaves. -/
def isService : Phase → Bool
  | .requesting _ | .storing _ _ | .joining _ | .locking _ _ | .unlocking _ _ | .released | .pausing => true
  | _ => false

/-- Phases of a service that cannot end in a fault any more. -/
def isSafe : Phase → Bool
  | .serving | .joining _ | .unlocking _ _ | .released | .pausing => true
  | _ => false

end Phase

/-- The operand that receives the result of a service, if it answers with one. -/
def Opcode.resultOperand? : Opcode → Option Nat
  | .createThread | .consoleRead => some 0
  | .read => some 3
  | _ => none

/-- What an operand of the last instruction stands for. -/
def Machine.Passes (m : Machine) (memory : Memory) (index : Nat) (v : Int64) : Prop :=
  ∃ o, m.decoder.record.arg? index = some o ∧ Core.Holds { machine := m, memory } o v

/-- The entry of the thread that a machine asks for with its last instruction. The thread starts at the address that
the instruction names, with the same registers, without open calls and under a switch that has not been thrown; it
can be joined. -/
def Worker.child (m : Machine) (index : Nat) : Worker :=
  { thread :=
      { index
        machine :=
          { registers := m.registers
            stack := []
            decoder := { code := m.decoder.code, cursor := m.decoder.record.address.toNat, record := {} } }
        switch := { thrown := false } }
    joinable := true
    phase := .serving }

/-- The value that is read from what comes next in the input. -/
def Console.Next.value : Console.Next → Int64
  | word text => (Console.parseHex? text).getD (-1)
  | unreadable => -1
  | finished => -1

/-- A text is read word by word: its first word comes next, and the others are left. -/
def Console.Advances (pending : List String) (input : Bytes) (next : Next) (later : List String) (rest : Bytes) :
    Prop :=
  ∀ text, input = Utf8.encode text → ∃ text', rest = Utf8.encode text' ∧
    next = (remaining pending text).head?.elim .finished .word ∧
      remaining later text' = (remaining pending text).tail

theorem Console.advances_of_nextWord {pending later : List String} {input rest : Bytes} {next : Next}
    (h : nextWord pending input = (next, later, rest)) : Advances pending input next later rest := by
  rintro text rfl
  have hnext := nextWord_encode pending text
  rw [h] at hnext
  cases hwords : remaining pending text with
  | nil =>
    rw [hwords] at hnext
    obtain ⟨rfl, rfl, rfl⟩ : next = .finished ∧ later = [] ∧ rest = Utf8.encode [] := by simpa using hnext
    exact ⟨[], rfl, rfl, rfl⟩
  | cons word words =>
    rw [hwords] at hnext
    obtain ⟨later', text', hfirst, hlater⟩ := hnext
    obtain ⟨rfl, rfl, rfl⟩ : next = .word word ∧ later = later' ∧ rest = Utf8.encode text' := by
      simpa using hfirst
    exact ⟨text', rfl, rfl, hlater⟩

/-- A reading uses up what comes next. -/
theorem Console.readFrom_of_nextWord {c : Console} {input rest : Bytes} {next : Next} {pending : List String}
    (h : nextWord c.pending input = (next, pending, rest)) :
    (c.readFrom input).value = next.value ∧ (c.readFrom input).console = { c with pending } ∧
      (c.readFrom input).rest = rest := by
  unfold readFrom
  rw [h]
  cases next with
  | finished | unreadable => exact ⟨rfl, rfl, rfl⟩
  | word text =>
    -- a word that is no number counts as -1
    rw [Next.value]
    cases hvalue : parseHex? text with
    | none => simp only [hvalue, noInput, Option.getD_none, and_self]
    | some value => simp only [hvalue, Option.getD_some, and_self]

/-- An attempt to take a lock changes the table only when it takes it. -/
theorem LockTable.acquired_or_keeps (t : LockTable) (lock : Int64) (thread : Nat) (mayRun : Bool)
    (stage : LockStage) :
    (∃ created, (t.lockStep lock thread mayRun stage).1 = .acquired created) ∨
      (t.lockStep lock thread mayRun stage).2 = t := by
  cases stage with
  | look =>
    right
    rw [lockStep]
    split <;> rfl
  | create =>
    rw [lockStep]
    split
    · exact .inr rfl
    · exact .inl ⟨true, rfl⟩
  | wait =>
    rw [lockStep]
    split
    · exact .inl ⟨false, rfl⟩
    · right
      split
      · rfl
      · split <;> rfl

namespace Process

variable {p q : Process} {a : Action} {i : Nat} {w : Worker} {m : Machine} {op : Opcode}

/-- What a thread does and how its machine stands. -/
def threadState? (p : Process) (i : Nat) : Option (Phase × Machine) :=
  p.workers[i]?.map fun w => (w.phase, w.thread.machine)

/-- The states in which a thread takes its steps. -/
def turns (i : Nat) (past : List (Process × Action)) : List Process :=
  past.filterMap fun e => if e.2 = .advance i then some e.1 else none

/-- The thread is in a service all the time. -/
def InService (i : Nat) (past : List (Process × Action)) : Prop :=
  ∀ e ∈ past, (e.1.phase? i).any Phase.isService = true

instance (i : Nat) (past : List (Process × Action)) : Decidable (InService i past) :=
  inferInstanceAs (Decidable (∀ e ∈ past, _))

/-- Nothing changes but the phase of the thread and the log. -/
def Idle (i : Nat) (phase : Phase) (p q : Process) : Prop :=
  ∃ events : List Event, q =
    { p with workers := p.workers.modify i fun w => { w with phase }, log := events.foldl Array.push p.log }

/-- What a service does that answers with a result: the result, and the process with the work done. -/
inductive Effect (p : Process) (m : Machine) : Opcode → Int64 → Process → Prop
  /-- The child is in the table and takes its steps from now on. -/
  | creates (hentry : m.decoder.record.address.toNat < m.decoder.code.length) :
    Effect p m .createThread (Int64.ofNat p.workers.size)
      { p with workers := p.workers.push (Worker.child m p.workers.size) }
  /-- The bytes of the file are in the memory. -/
  | copies {offset count address transferred : Int64} {memory : Memory}
    (hoffset : m.Passes p.memory 0 offset) (hcount : m.Passes p.memory 1 count)
    (haddress : m.Passes p.memory 2 address)
    (hcopied : p.file.Copied offset count p.memory address transferred memory) :
    Effect p m .read transferred { p with memory }
  /-- The first of the captured values is used up. -/
  | consumes {value : Int64} {rest : List Int64} (hinput : p.console.input = some (value :: rest)) :
    Effect p m .consoleRead value { p with console := { p.console with input := some rest } }
  | exhausted (hinput : p.console.input = some []) : Effect p m .consoleRead (-1) p
  /-- The next word of the standard input is used up. -/
  | takes {next : Console.Next} {pending : List String} {rest : Bytes} (hinput : p.console.input = none)
    (hnext : Console.nextWord p.console.pending p.stdin = (next, pending, rest))
    (hadvances : Console.Advances p.console.pending p.stdin next pending rest) :
    Effect p m .consoleRead next.value { p with console := { p.console with pending }, stdin := rest }

/-- The step in which a service does its work, and goes on to store the result. -/
def Works (i : Nat) (m : Machine) (op : Opcode) (operand : Nat) (value : Int64) (p q : Process) : Prop :=
  op.resultOperand? = some operand ∧ ∃ done, Effect p m op value done ∧ Idle i (.storing operand value) done q

/-- The process whose thread goes on with this machine, on this memory. -/
def resumed (p : Process) (i : Nat) (c : Core) : Process :=
  { p with
    memory := c.memory
    workers := p.workers.modify i fun w =>
      { w with thread := { w.thread with machine := c.machine }, phase := .serving } }

/-- The bytes that an operand of the machine points to are not all in the memory. -/
def Misses (m : Machine) (memory : Memory) (operand : Nat) (fault : Fault) : Prop :=
  ∃ width base address, m.decoder.record.arg? operand = some (.memory width base) ∧
    m.registers[base.toNat]? = some address ∧ ¬ memory.Covers address width.bytes ∧
    fault = .memoryRange address width.bytes memory.size

/-- How a service has gone that ended in a fault, given the states in which the thread took its steps: none of
them changed anything shared, or the work was done and the result could not be stored. -/
inductive Failed (i : Nat) (m : Machine) (op : Opcode) (fault : Fault) : List Process → Prop
  | unchanged {turns : List Process} (h : ∀ r ∈ turns, ∃ phase, Idle i phase r (r.step i)) :
    Failed i m op fault turns
  | unstored {operand : Nat} {value : Int64} {r s : Process} (hwork : Works i m op operand value r (r.step i))
    (hmiss : Misses m s.memory operand fault)
    (hleave : s.step i =
      { s with workers := s.workers.modify i fun w => { w with phase := .leaving (some fault) } }) :
    Failed i m op fault [r, s]

/-- How a service with a result has gone that did not fail: the work was done, and the operand has received the
result. -/
inductive Answered (i : Nat) (m : Machine) (op : Opcode) (operand : Nat) : List Process → Prop
  | stored {value : Int64} {r s : Process} {o : Operand} {c : Core}
    (hwork : Works i m op operand value r (r.step i)) (harg : m.decoder.record.arg? operand = some o)
    (hstores : Core.Stores { machine := m, memory := s.memory } value c o)
    (hdecoder : c.machine.decoder = m.decoder) (hstack : c.machine.stack = m.stack)
    (hstore : s.step i = s.resumed i c) : Answered i m op operand [r, s]

section ThreadState

theorem threadState?_of_getElem? (hw : p.workers[i]? = some w) :
    p.threadState? i = some (w.phase, w.thread.machine) := by
  rw [threadState?, hw, Option.map_some]

theorem threadState?_eq_some_iff {phase : Phase} :
    p.threadState? i = some (phase, m) ↔
      ∃ w, p.workers[i]? = some w ∧ w.phase = phase ∧ w.thread.machine = m := by
  simp only [threadState?, Option.map_eq_some_iff, Prod.mk.injEq]

theorem phase?_of_threadState? {phase : Phase} (h : p.threadState? i = some (phase, m)) :
    p.phase? i = some phase := by
  obtain ⟨w, hw, rfl, -⟩ := threadState?_eq_some_iff.mp h
  exact phase?_of_getElem? hw

theorem exists_threadState? (h : (p.phase? i).any Phase.isService = true) :
    ∃ phase m, p.threadState? i = some (phase, m) ∧ phase.isService = true := by
  obtain ⟨phase, hphase, hservice⟩ := (Option.any_eq_true _ _).mp h
  obtain ⟨w, hw, rfl⟩ := phase?_eq_some_iff.mp hphase
  exact ⟨w.phase, w.thread.machine, threadState?_of_getElem? hw, hservice⟩

theorem threadState?_setPhase {before : Phase} (h : p.threadState? i = some (before, m)) (phase : Phase) :
    (p.setPhase i phase).threadState? i = some (phase, m) := by
  obtain ⟨w, hw, -, rfl⟩ := threadState?_eq_some_iff.mp h
  rw [threadState?, setPhase, getElem?_modify_self hw]
  rfl

theorem threadState?_resumed {state : Phase × Machine} (h : p.threadState? i = some state) (c : Core) :
    (p.resumed i c).threadState? i = some (.serving, c.machine) := by
  obtain ⟨w, hw, -⟩ := Option.map_eq_some_iff.mp h
  rw [threadState?, resumed, getElem?_modify_self hw]
  rfl

theorem Idle.threadState? {before phase : Phase} (h : Idle i phase p q)
    (hp : p.threadState? i = some (before, m)) : q.threadState? i = some (phase, m) := by
  obtain ⟨events, rfl⟩ := h
  exact threadState?_setPhase hp phase

/-- Only a thread itself goes on in another phase or changes its machine. -/
theorem Change.threadState?_eq (h : Change p a q) (ha : a ≠ .advance i) {state : Phase × Machine}
    (hi : p.threadState? i = some state) : q.threadState? i = some state := by
  obtain ⟨w, hw, hstate⟩ := Option.map_eq_some_iff.mp hi
  -- the entry may change otherwise: a stop throws its switch, and a join or the end of the process takes it
  have hentry {w' : Worker} (hw' : q.workers[i]? = some w')
      (hsame : (w'.phase, w'.thread.machine) = (w.phase, w.thread.machine)) :
      q.threadState? i = some state := by
    rw [threadState?_of_getElem? hw', hsame, hstate]
  have hother {k : Nat} (hk : a = .advance k) : k ≠ i := by
    rintro rfl
    exact ha hk
  cases h with
  | prepares _ hworkers => exact hentry (hworkers ▸ hw) rfl
  | enters => exact hentry (getElem?_push_of_some hw _) rfl
  | requests => exact hi
  | delivers =>
    have hstop : (p.workers.map Worker.stop)[i]? = some w.stop := by
      rw [Array.getElem?_map, hw, Option.map_some]
    exact hentry hstop rfl
  | moves machine phase _ _ _ hworkers =>
    exact hentry (by rw [hworkers, getElem?_modify_of_ne _ _ (hother rfl), hw]) rfl
  | creates child _ _ _ _ _ _ hworkers =>
    exact hentry (by rw [hworkers, getElem?_modify_of_ne _ _ (hother rfl), getElem?_push_of_some hw]) rfl
  | @joins k target _ _ _ _ _ _ _ _ hworkers =>
    have htarget : q.workers[i]? = if target = i then some { w with joinable := false } else some w := by
      rw [hworkers, getElem?_modify_of_ne _ _ (hother rfl), Array.getElem?_modify, hw, Option.map_some]
    split at htarget
    · exact hentry htarget rfl
    · exact hentry htarget rfl
  | halts => exact hentry ((getElem?_modify_of_ne _ _ (hother rfl)).trans hw) rfl
  | sweeps =>
    have hstop : (p.workers.map fun w => { w.stop with joinable := false })[i]? =
        some { w.stop with joinable := false } := by
      rw [Array.getElem?_map, hw, Option.map_some]
    exact hentry ((getElem?_modify_of_ne _ _ (hother rfl)).trans hstop) rfl

end ThreadState

/-- What a step does that a thread takes in a service. -/
inductive ServiceStep (p : Process) (i : Nat) (m : Machine) : Phase → Process → Prop
  /-- Nothing is done, and the thread has to leave. -/
  | refuses {op : Opcode} {result : Option Fault} {q : Process} (h : Idle i (.leaving result) p q) :
    ServiceStep p i m (.requesting op) q
  | works {op : Opcode} {operand : Nat} {value : Int64} {q : Process} (h : Works i m op operand value p q) :
    ServiceStep p i m (.requesting op) q
  | asks {op : Opcode} {lock : Int64} {q : Process} (hop : op.resultOperand? = none)
    (h : Idle i (.locking lock .look) p q) : ServiceStep p i m (.requesting op) q
  /-- A service without a result is done, or can only succeed from now on. -/
  | goesOn {op : Opcode} {next : Phase} {q : Process} (hop : op.resultOperand? = none)
    (hnext : next.isSafe = true) (hq : q.threadState? i = some (next, m)) :
    ServiceStep p i m (.requesting op) q
  | misses {operand : Nat} {value : Int64} {fault : Fault}
    (hd : m.destination p.memory operand = .error fault) :
    ServiceStep p i m (.storing operand value) (p.leave i fault)
  | stores {operand : Nat} {value : Int64} {d : Destination} (hd : m.destination p.memory operand = .ok d) :
    ServiceStep p i m (.storing operand value) (p.resumed i (Core.put { machine := m, memory := p.memory } value d))
  | waits {lock : Int64} {stage next : LockStage} {q : Process} (h : Idle i (.locking lock next) p q) :
    ServiceStep p i m (.locking lock stage) q
  | reenters {lock : Int64} {stage : LockStage} {fault : Fault} {q : Process}
    (h : Idle i (.leaving (some fault)) p q) : ServiceStep p i m (.locking lock stage) q
  | takes {lock : Int64} {stage : LockStage} {q : Process} (hq : q.threadState? i = some (.serving, m)) :
    ServiceStep p i m (.locking lock stage) q
  | passes {phase next : Phase} {q : Process} (hphase : phase.isSafe = true) (hnext : next.isSafe = true)
    (hq : q.threadState? i = some (next, m)) : ServiceStep p i m phase q

section Steps

variable {t : Thread} {phase : Phase}

theorem serviceStep_orLeave {α : Type} {value : Except Fault α} {next : α → Process}
    (hnext : ∀ a, value = .ok a → ServiceStep p i m (.requesting op) (next a)) :
    ServiceStep p i m (.requesting op) (p.orLeave i value next) := by
  cases value with
  | ok a => exact hnext a rfl
  | error fault => exact .refuses ⟨[], rfl⟩

theorem passes_of_transferArgs {memory : Memory} {offset count address : Int64}
    (h : transferArgs m memory = .ok (offset, count, address)) :
    m.Passes memory 0 offset ∧ m.Passes memory 1 count ∧ m.Passes memory 2 address := by
  have hpasses {index : Nat} {v : Int64} (hv : m.readArg memory index = .ok v) : m.Passes memory index v :=
    (Machine.readArg_eq_ok_iff { machine := m, memory } index v).mp hv
  simp only [transferArgs, Except.bind_eq_ok_iff, Except.pure_eq_ok_iff, Prod.mk.injEq] at h
  obtain ⟨_, hoffset, _, hcount, _, haddress, rfl, rfl, rfl⟩ := h
  exact ⟨hpasses hoffset, hpasses hcount, hpasses haddress⟩

theorem effect_readConsole (p : Process) (m : Machine) :
    Effect p m .consoleRead (p.console.read p.stdin).value
      { p with console := (p.console.read p.stdin).console, stdin := (p.console.read p.stdin).rest } := by
  unfold Console.read
  cases hinput : p.console.input with
  | some values =>
    cases values with
    | nil => exact .exhausted hinput
    | cons value rest => exact .consumes hinput
  | none =>
    rcases hnext : Console.nextWord p.console.pending p.stdin with ⟨next, pending, rest⟩
    obtain ⟨hvalue, hconsole, hrest⟩ := Console.readFrom_of_nextWord hnext
    dsimp only
    rw [hvalue, hconsole, hrest]
    exact .takes hinput hnext (Console.advances_of_nextWord hnext)

theorem serviceStep_createThread (p : Process) (i : Nat) (t : Thread) :
    ServiceStep p i t.machine (.requesting .createThread) (p.createThread i t) := by
  unfold createThread
  split
  next => exact .refuses ⟨[], rfl⟩
  next =>
    apply serviceStep_orLeave
    intro child hchild
    obtain ⟨hentry, rfl⟩ := Thread.spawn_eq_ok hchild
    exact .works ⟨rfl, _, .creates hentry, [_], rfl⟩

/-- A join takes its target first; the entry of the caller changes only in its phase, whichever thread the target
is. -/
theorem threadState?_join (hp : p.threadState? i = some (phase, t.machine)) {target : Nat} {value : Int64}
    (htarget : p.joinTarget t.index value = .ok target) :
    (p.join i t value).threadState? i = some (.joining target, t.machine) := by
  obtain ⟨w, hw, -, hm⟩ := threadState?_eq_some_iff.mp hp
  have hentry : (p.workers.modify target fun w => { w with joinable := false })[i]? =
      if target = i then some { w with joinable := false } else some w := by
    rw [Array.getElem?_modify, hw, Option.map_some]
  rw [threadState?, workers_join htarget]
  split at hentry
  · rw [getElem?_modify_self hentry, Option.map_some, ← hm]
  · rw [getElem?_modify_self hentry, Option.map_some, ← hm]

theorem serviceStep_readFile (p : Process) (i : Nat) (m : Machine) :
    ServiceStep p i m (.requesting .read) (p.readFile i m) := by
  apply serviceStep_orLeave
  intro operands hargs
  apply serviceStep_orLeave
  intro transfer hread
  obtain ⟨hoffset, hcount, haddress⟩ := passes_of_transferArgs hargs
  exact .works ⟨rfl, _, .copies hoffset hcount haddress (DataFile.copied_of_read hread), [], rfl⟩

theorem serviceStep_writeFile (hp : p.threadState? i = some (phase, m)) :
    ServiceStep p i m (.requesting .write) (p.writeFile i m) := by
  apply serviceStep_orLeave
  intro operands _
  apply serviceStep_orLeave
  intro file _
  exact .goesOn rfl rfl (threadState?_setPhase (p := { p with file }) hp .serving)

theorem serviceStep_serve (hp : p.threadState? i = some (.requesting op, t.machine)) :
    ServiceStep p i t.machine (.requesting op) (p.serve i t op) := by
  unfold serve
  -- one case for each service; all that remains ends the thread
  split
  · exact serviceStep_createThread p i t
  · apply serviceStep_orLeave
    intro value _
    apply serviceStep_orLeave
    intro target htarget
    have hjoin := threadState?_join hp htarget
    rw [join, htarget] at hjoin
    exact .goesOn rfl rfl hjoin
  · exact serviceStep_readFile p i t.machine
  · exact serviceStep_writeFile hp
  · exact .works ⟨rfl, _, effect_readConsole p t.machine, _, rfl⟩
  · apply serviceStep_orLeave
    intro value _
    have hwrite : (p.writeConsole i value).threadState? i = some (.serving, t.machine) :=
      threadState?_setPhase (p := { p with
        console := (p.console.write value).1, stdout := p.stdout ++ (p.console.write value).2 }) hp .serving
    exact .goesOn rfl rfl hwrite
  · apply serviceStep_orLeave
    intro lock _
    exact .asks rfl ⟨[], rfl⟩
  · apply serviceStep_orLeave
    intro lock _
    exact .goesOn rfl rfl (threadState?_setPhase hp (.unlocking lock .look))
  all_goals exact .refuses ⟨[], rfl⟩

theorem serviceStep_storeResult (p : Process) (i : Nat) (t : Thread) (operand : Nat) (value : Int64) :
    ServiceStep p i t.machine (.storing operand value) (p.storeResult i t operand value) := by
  unfold storeResult
  cases hd : t.machine.destination p.memory operand with
  | error fault => exact .misses hd
  | ok d => exact .stores hd

theorem serviceStep_takeLock {lock : Int64} {stage : LockStage}
    (hp : p.threadState? i = some (.locking lock stage, t.machine)) :
    ServiceStep p i t.machine (.locking lock stage) (p.takeLock i t lock stage) := by
  have hsame := p.locks.acquired_or_keeps lock t.index t.switch.mayRun stage
  unfold takeLock
  rcases hlock : p.locks.lockStep lock t.index t.switch.mayRun stage with ⟨outcome, table⟩
  rw [hlock] at hsame
  cases outcome with
  | acquired created => exact .takes (threadState?_setPhase (p := { p with locks := table }) hp .serving)
  | abandoned => exact .takes (threadState?_setPhase (p := { p with locks := table }) hp .serving)
  -- refused or made to wait, a thread leaves the table as it has found it
  | reentrant =>
    have htable : table = p.locks := hsame.resolve_left (by simp)
    exact .reenters ⟨[], by rw [htable]; rfl⟩
  | pending next =>
    have htable : table = p.locks := hsame.resolve_left (by simp)
    exact .waits ⟨[], by rw [htable]; rfl⟩

theorem serviceStep_releaseLock {lock : Int64} {stage : UnlockStage}
    (hp : p.threadState? i = some (.unlocking lock stage, m)) :
    ServiceStep p i m (.unlocking lock stage) (p.releaseLock i lock stage) := by
  unfold releaseLock
  rcases p.locks.unlockStep lock stage with ⟨outcome, table⟩
  cases outcome with
  | done released =>
    exact .passes rfl rfl (threadState?_setPhase (p := { p with locks := table }) hp .released)
  | pending =>
    exact .passes rfl rfl (threadState?_setPhase (p := { p with locks := table }) hp (.unlocking lock .clear))

/-- Every step that a thread takes in a service is one of these. -/
theorem serviceStep_step (hp : p.threadState? i = some (phase, m)) (hphase : phase.isService = true) :
    ServiceStep p i m phase (p.step i) := by
  obtain ⟨w, hw, rfl, rfl⟩ := threadState?_eq_some_iff.mp hp
  have hstep : p.step i = p.stepIn i w.thread w.phase := by rw [step, hw]
  rw [hstep]
  generalize w.phase = phase at hp hphase ⊢
  cases phase with
  | requesting op => exact serviceStep_serve hp
  | storing operand value => exact serviceStep_storeResult p i w.thread operand value
  | locking lock stage => exact serviceStep_takeLock hp
  | unlocking lock stage => exact serviceStep_releaseLock hp
  | joining target => exact .passes rfl rfl (threadState?_setPhase hp .serving)
  | pausing => exact .passes rfl rfl (threadState?_setPhase hp .serving)
  | released =>
    cases hholds : p.locks.holdsAny w.thread.index with
    | true =>
      have hq := threadState?_setPhase hp .serving
      simp only [stepIn, hholds, if_true]
      exact .passes rfl rfl hq
    | false =>
      have hq := threadState?_setPhase hp .pausing
      simp only [stepIn, hholds, Bool.false_eq_true, if_false]
      exact .passes rfl rfl hq
  | serving | running | leaving | halting | sweeping | collecting | shutting | finished => cases hphase

end Steps

section Courses

variable {rs : List Process} {phase : Phase}

/-- How far a service has come, given the states in which its thread took its steps. -/
inductive Course (i : Nat) (m : Machine) (op : Opcode) : List Process → Phase → Prop
  | asked : Course i m op [] (.requesting op)
  | works {operand : Nat} {value : Int64} {r : Process} (h : Works i m op operand value r (r.step i)) :
    Course i m op [r] (.storing operand value)
  | waits {rs : List Process} {lock : Int64} {stage : LockStage} (hop : op.resultOperand? = none)
    (h : ∀ r ∈ rs, ∃ phase, Idle i phase r (r.step i)) : Course i m op rs (.locking lock stage)
  | safe {rs : List Process} {phase : Phase} (hop : op.resultOperand? = none) (hphase : phase.isSafe = true) :
    Course i m op rs phase
  | answered {operand : Nat} {rs : List Process} (hop : op.resultOperand? = some operand)
    (h : Answered i m op operand rs) : Course i m op rs .serving
  | failed {fault : Fault} {rs : List Process} (h : Failed i m op fault rs) :
    Course i m op rs (.leaving (some fault))
  | quits {rs : List Process} : Course i m op rs (.leaving none)

namespace Course

theorem of_requesting {op' : Opcode} (h : Course i m op rs (.requesting op')) : op' = op ∧ rs = [] := by
  cases h with
  | asked => exact ⟨rfl, rfl⟩
  | safe _ hsafe => cases hsafe

theorem of_storing {operand : Nat} {value : Int64} (h : Course i m op rs (.storing operand value)) :
    ∃ r, rs = [r] ∧ Works i m op operand value r (r.step i) := by
  cases h with
  | works hwork => exact ⟨_, rfl, hwork⟩
  | safe _ hsafe => cases hsafe

theorem of_locking {lock : Int64} {stage : LockStage} (h : Course i m op rs (.locking lock stage)) :
    op.resultOperand? = none ∧ ∀ r ∈ rs, ∃ phase, Idle i phase r (r.step i) := by
  cases h with
  | waits hop hidle => exact ⟨hop, hidle⟩
  | safe _ hsafe => cases hsafe

/-- Within a service only those without a result come to a phase that cannot fail. -/
theorem of_safe (h : Course i m op rs phase) (hsafe : phase.isSafe = true)
    (hservice : phase.isService = true) : op.resultOperand? = none := by
  cases h with
  | safe hop _ => exact hop
  | answered => cases hservice
  | asked | works | waits | failed | quits => cases hsafe

end Course

theorem course_leaving (h : ∀ r ∈ rs, ∃ phase, Idle i phase r (r.step i)) (result : Option Fault) :
    Course i m op rs (.leaving result) := by
  cases result with
  | none => exact .quits
  | some fault => exact .failed (.unchanged h)

theorem misses_of_destination {fault : Fault} {memory : Memory} {operand : Nat}
    (hfits : m.decoder.record.Fits op) (hoperand : operand < op.operandCount)
    (h : m.destination memory operand = .error fault) : Misses m memory operand fault := by
  obtain ⟨o, ho, hregister⟩ := Machine.operand_eq_ok hfits hoperand
  have harg : m.decoder.record.arg? operand = some o := by
    unfold Machine.operand at ho
    split at ho
    next harg => rw [harg, Except.ok.inj ho]
    next => cases ho
  cases o with
  | register base =>
    -- a register can always be written
    have hbase : base.toNat < 16 := hregister
    unfold Machine.destination at h
    rw [ho] at h
    simp only [bind, Except.bind, dif_pos hbase] at h
    cases h
  | memory width base =>
    have hbase : base.toNat < 16 := hregister
    have hget : m.registers[base.toNat]? = some m.registers[base.toNat] := Vector.getElem?_eq_getElem hbase
    rw [Machine.destination_of_memory harg hget] at h
    split at h
    next => cases h
    next hcovers => exact ⟨width, base, _, harg, hget, hcovers, (Except.error.inj h).symm⟩

theorem lt_operandCount {operand : Nat} (h : op.resultOperand? = some operand) :
    operand < op.operandCount := by
  cases op <;> first | cases h; decide | cases h

/-- The work of a service leaves its thread where it is. -/
theorem Effect.threadState?_eq {value : Int64} {done : Process} (h : Effect p m op value done)
    (hp : p.threadState? i = some (phase, m)) : done.threadState? i = some (phase, m) := by
  cases h with
  | creates =>
    obtain ⟨w, hw, hphase, hmachine⟩ := threadState?_eq_some_iff.mp hp
    exact threadState?_eq_some_iff.mpr ⟨w, getElem?_push_of_some hw _, hphase, hmachine⟩
  | copies | consumes | exhausted | takes => exact hp

theorem idle_concat (h : ∀ r ∈ rs, ∃ phase, Idle i phase r (r.step i)) (hp : Idle i phase p (p.step i)) :
    ∀ r ∈ rs ++ [p], ∃ phase, Idle i phase r (r.step i) := by
  intro r hr
  rcases List.mem_append.mp hr with hold | hnew
  · exact h r hold
  · rw [List.mem_singleton.mp hnew]
    exact ⟨phase, hp⟩

/-- A thread comes further in a service with each of its steps. -/
theorem Course.step (hfits : op.resultOperand?.isSome = true → m.decoder.record.Fits op)
    (hcourse : Course i m op rs phase) (hp : p.threadState? i = some (phase, m))
    (hphase : phase.isService = true) :
    ∃ next m', (p.step i).threadState? i = some (next, m') ∧ Course i m op (rs ++ [p]) next ∧
      (next = .serving ∨ m' = m) := by
  have hserves := serviceStep_step hp hphase
  -- the phase tells which step it is, and how far the service had come
  generalize hq : p.step i = q at hserves ⊢
  cases hserves with
  | @refuses _ result _ h =>
    obtain ⟨rfl, rfl⟩ := hcourse.of_requesting
    have hstate := h.threadState? hp
    rw [← hq] at h
    exact ⟨_, m, hstate, course_leaving (idle_concat (by simp) h) result, .inr rfl⟩
  | works h =>
    obtain ⟨rfl, rfl⟩ := hcourse.of_requesting
    obtain ⟨hop, done, heffect, hidle⟩ := h
    have hstate := hidle.threadState? (heffect.threadState?_eq hp)
    exact ⟨_, m, hstate, .works ⟨hop, done, heffect, hq ▸ hidle⟩, .inr rfl⟩
  | asks hop h =>
    obtain ⟨rfl, rfl⟩ := hcourse.of_requesting
    have hstate := h.threadState? hp
    rw [← hq] at h
    exact ⟨_, m, hstate, .waits hop (idle_concat (by simp) h), .inr rfl⟩
  | goesOn hop hnext hstate =>
    obtain ⟨rfl, rfl⟩ := hcourse.of_requesting
    exact ⟨_, m, hstate, .safe hop hnext, .inr rfl⟩
  | misses hd =>
    -- the one fault that comes when the work is done
    obtain ⟨r, rfl, hwork⟩ := hcourse.of_storing
    have hop := hwork.1
    have hmiss := misses_of_destination (hfits (by rw [hop]; rfl)) (lt_operandCount hop) hd
    exact ⟨_, m, threadState?_setPhase hp _, .failed (.unstored hwork hmiss hq), .inr rfl⟩
  | @stores operand value d hd =>
    obtain ⟨r, rfl, hwork⟩ := hcourse.of_storing
    obtain ⟨o, harg, hstores, hdecoder, hstack⟩ :=
      (Core.exists_put_iff { machine := m, memory := p.memory } _ operand value).mp ⟨d, hd, rfl⟩
    have hanswered := Answered.stored hwork harg hstores hdecoder hstack hq
    exact ⟨.serving, _, threadState?_resumed hp _, .answered hwork.1 hanswered, .inl rfl⟩
  | waits h =>
    obtain ⟨hop, hbefore⟩ := hcourse.of_locking
    have hstate := h.threadState? hp
    rw [← hq] at h
    exact ⟨_, m, hstate, .waits hop (idle_concat hbefore h), .inr rfl⟩
  | reenters h =>
    obtain ⟨-, hbefore⟩ := hcourse.of_locking
    have hstate := h.threadState? hp
    rw [← hq] at h
    exact ⟨_, m, hstate, course_leaving (idle_concat hbefore h) _, .inr rfl⟩
  | takes hstate =>
    have hop := hcourse.of_locking.1
    exact ⟨_, m, hstate, .safe hop rfl, .inr rfl⟩
  | passes hsafe hnext hstate =>
    have hop := hcourse.of_safe hsafe hphase
    exact ⟨_, m, hstate, .safe hop hnext, .inr rfl⟩

theorem eq_step_of_perform (h : p.perform (.advance i) = some q) : q = p.step i := by
  obtain ⟨w, hw, -, rfl⟩ := advance_eq_some h
  rw [step, hw]

theorem turns_concat (i : Nat) (past : List (Process × Action)) (p : Process) (a : Action) :
    turns i (past ++ [(p, a)]) = if a = .advance i then turns i past ++ [p] else turns i past := by
  rw [turns, List.filterMap_append, List.filterMap_cons, List.filterMap_nil]
  split_ifs with ha
  · rfl
  · exact List.append_nil _

/-- A thread leaves a service with a step of its own. -/
theorem inService_or_last {during : List Action} (hp : (p.phase? i).any Phase.isService = true)
    (hq : p.performAll during = some q) (hin : InService i (p.trail during)) :
    (q.phase? i).any Phase.isService = true ∨
      ∃ s, (turns i (p.trail during)).getLast? = some s ∧ q = s.step i := by
  let Inv (past : List (Process × Action)) (r : Process) : Prop := InService i past →
    (r.phase? i).any Phase.isService = true ∨ ∃ s, (turns i past).getLast? = some s ∧ r = s.step i
  have hstart : Inv [] p := fun _ => .inl hp
  have hstep {past r a s} (_ : Inv past r) (hs : r.perform a = some s) : Inv (past ++ [(r, a)]) s := by
    -- only the state before the step counts, in which the thread was in the service
    intro hin
    have hnow := hin (r, a) (List.mem_append_right _ (List.mem_singleton_self _))
    obtain ⟨phase, m, hstate, hservice⟩ := exists_threadState? hnow
    by_cases ha : a = .advance i
    · subst ha
      rw [turns_concat, if_pos rfl]
      exact .inr ⟨r, List.getLast?_concat, eq_step_of_perform hs⟩
    · have hafter := phase?_of_threadState? ((change_perform hs).threadState?_eq ha hstate)
      rw [hafter]
      exact .inl hservice
  exact trail_induct hstart hstep hq hin

/-- As long as a thread is in a service, its course tells what its steps have done. -/
theorem course_performAll (hfits : op.resultOperand?.isSome = true → m.decoder.record.Fits op)
    (hp : p.threadState? i = some (.requesting op, m)) {during : List Action}
    (hq : p.performAll during = some q) (hin : InService i (p.trail during)) :
    ∃ phase m', q.threadState? i = some (phase, m') ∧ Course i m op (turns i (p.trail during)) phase ∧
      (phase = .serving ∨ m' = m) := by
  let Inv (past : List (Process × Action)) (r : Process) : Prop := InService i past →
    ∃ phase m', r.threadState? i = some (phase, m') ∧ Course i m op (turns i past) phase ∧
      (phase = .serving ∨ m' = m)
  have hstart : Inv [] p := fun _ => ⟨_, m, hp, .asked, .inr rfl⟩
  have hstep {past r a s} (hr : Inv past r) (hs : r.perform a = some s) : Inv (past ++ [(r, a)]) s := by
    intro hin
    have hpast : InService i past := fun e he => hin e (List.mem_append_left _ he)
    have hnow := hin (r, a) (List.mem_append_right _ (List.mem_singleton_self _))
    obtain ⟨phase, m', hstate, hservice⟩ := exists_threadState? hnow
    obtain ⟨phase', m'', hstate', hcourse, hmachine⟩ := hr hpast
    obtain ⟨rfl, rfl⟩ := Prod.mk.inj (Option.some.inj (hstate.symm.trans hstate'))
    rw [turns_concat]
    split_ifs with ha
    · subst ha
      -- a thread that looks for its next instruction is in no service
      have hsame : m' = m := hmachine.resolve_left (by rintro rfl; cases hservice)
      subst hsame
      rw [eq_step_of_perform hs]
      exact hcourse.step hfits hstate hservice
    · exact ⟨phase, m', (change_perform hs).threadState?_eq ha hstate, hcourse, hmachine⟩
  exact trail_induct hstart hstep hq hin

end Courses

section Requests

variable {memory : Memory}

theorem fits_of_fetched? {m' : Machine} (h : m.fetched? = some (op, m')) : m'.decoder.record.Fits op := by
  obtain ⟨d, hrun, rfl⟩ := Machine.fetched?_eq_some_iff.mp h
  rcases (Reading.instruction_run_eq_ok _ _ _).mp hrun with ⟨-, rfl, rfl⟩ | ⟨-, -, o, hfits, -, rfl⟩
  · exact ⟨rfl, by simp, fun _ => rfl, fun _ => rfl⟩
  · exact hfits

theorem stopped_or_eq_of_surface {sliceMs : Nat} {t : Thread} {op' : Opcode}
    (h : (t.surface memory sliceMs op').1 = .surfaced op) : op = .stopped ∨ op = op' := by
  unfold Thread.surface at h
  split at h
  · split at h
    · exact .inl (ThreadOutcome.surfaced.inj h).symm
    · cases h
  · split at h
    · exact .inl (ThreadOutcome.surfaced.inj h).symm
    · exact .inr (ThreadOutcome.surfaced.inj h).symm

/-- An operation that a thread hands over comes with its operands, unless the thread was stopped. -/
theorem fits_of_surfaced {sliceMs : Nat} {t : Thread} {b : Activity}
    (h : (t.step sliceMs memory b).1.1 = .surfaced op) :
    op = .stopped ∨ (t.step sliceMs memory b).2.1.machine.decoder.record.Fits op := by
  cases b with
  | sleeping slices remainder => cases h
  | computing =>
    cases hrun : t.switch.mayRun with
    | false =>
      simp only [Thread.step, hrun, Bool.false_eq_true, if_false] at h
      exact .inl (ThreadOutcome.surfaced.inj h).symm
    | true =>
      simp only [Thread.step, hrun, if_true] at h ⊢
      rcases hstep : Core.step { machine := t.machine, memory } with ⟨fault | result, c⟩
      · rw [hstep] at h
        exact .inl (ThreadOutcome.surfaced.inj h).symm
      · rw [hstep] at h
        cases result with
        | none => cases h
        | some op' =>
          obtain ⟨address, op'', m, -, hm, ⟨-, hnone, -⟩ | ⟨-, hsome, rfl⟩⟩ :=
            (Core.step_eq_ok_iff _ _ _).mp hstep
          · cases hnone
          · -- the record that was read with the operation is still there
            obtain rfl := Option.some.inj hsome
            apply (stopped_or_eq_of_surface h).imp_right
            rintro rfl
            exact fits_of_fetched? hm

/-- Every request that a thread makes of its process comes with the operands of its operation. -/
def Fetched (p : Process) : Prop :=
  ∀ i op m, p.threadState? i = some (.requesting op, m) → op = .stopped ∨ m.decoder.record.Fits op

theorem ServiceStep.not_requesting {phase : Phase} (h : ServiceStep p i m phase q)
    (hp : p.threadState? i = some (phase, m)) (op : Opcode) (m' : Machine) :
    q.threadState? i ≠ some (.requesting op, m') := by
  have hne {next : Phase} {m₁ : Machine} (hstate : q.threadState? i = some (next, m₁))
      (hnext : ∀ op, next ≠ .requesting op) : q.threadState? i ≠ some (.requesting op, m') := by
    rw [hstate]
    intro heq
    exact hnext op (Prod.mk.inj (Option.some.inj heq)).1
  have hsafe {next : Phase} (hnext : next.isSafe = true) (op : Opcode) : next ≠ .requesting op := by
    rintro rfl
    cases hnext
  cases h with
  | refuses h | asks _ h | waits h | reenters h => exact hne (h.threadState? hp) (by simp)
  | works h =>
    obtain ⟨-, done, heffect, hidle⟩ := h
    exact hne (hidle.threadState? (heffect.threadState?_eq hp)) (by simp)
  | goesOn _ hnext hstate | passes _ hnext hstate => exact hne hstate (hsafe hnext)
  | misses hd => exact hne (threadState?_setPhase hp _) (by simp)
  | stores hd =>
    exact hne (threadState?_resumed hp _) (by simp)
  | takes hstate => exact hne hstate (by simp)

/-- A thread makes a request out of an instruction. -/
theorem running_of_requesting (h : Phase.Follows p q w (.requesting op)) :
    (∃ b, w.phase = .running b) ∨ w.phase.isService = true := by
  cases h with
  | works hwork _ =>
    cases hphase : w.phase with
    | running b => exact .inl ⟨b, rfl⟩
    | requesting | storing | unlocking | released | pausing => exact .inr rfl
    | serving | joining | locking | leaving | halting | sweeping | collecting | shutting | finished =>
      rw [hphase] at hwork
      cases hwork
  | takes hphase =>
    rw [hphase]
    exact .inr rfl

theorem fits_of_runMachine (hw : p.workers[i]? = some w) {b : Activity}
    (hq : (p.runMachine i w.thread b).threadState? i = some (.requesting op, m)) :
    op = .stopped ∨ m.decoder.record.Fits op := by
  have hfits (h : (w.thread.step p.settings.sleepSlice p.memory b).1.1 = .surfaced op) :=
    fits_of_surfaced h
  unfold runMachine at hq
  dsimp only at hq
  rcases hstep : Thread.step p.settings.sleepSlice w.thread p.memory b with
    ⟨⟨outcome, events⟩, thread, memory⟩
  rw [hstep] at hq hfits
  have hentry (phase : Phase) : (p.workers.modify i fun w => { w with thread, phase })[i]? =
      some { w with thread, phase } := getElem?_modify_self hw
  cases outcome with
  | going b' =>
    obtain ⟨w', hw', hphase, -⟩ := threadState?_eq_some_iff.mp hq
    obtain rfl := Option.some.inj ((hentry _).symm.trans hw')
    cases hphase
  | surfaced op' =>
    obtain ⟨w', hw', hphase, hm⟩ := threadState?_eq_some_iff.mp hq
    obtain rfl := Option.some.inj ((hentry _).symm.trans hw')
    obtain rfl := Phase.requesting.inj hphase
    rw [← hm]
    exact hfits rfl

theorem Fetched.step (hp : p.Fetched) (h : p.perform a = some q) : q.Fetched := by
  intro i op m hq
  have hchange := change_perform h
  obtain ⟨w', hw', hphase', hm'⟩ := threadState?_eq_some_iff.mp hq
  rcases hchange.origin hw' with ⟨w, hw, hevolves⟩ | ⟨-, henters⟩
  · have hbefore := threadState?_of_getElem? hw
    by_cases ha : a = .advance i
    · subst ha
      have hfollows := hevolves.turn rfl
      rw [hphase'] at hfollows
      rw [eq_step_of_perform h] at hq
      -- a step within a service makes no new request
      rcases running_of_requesting hfollows with ⟨b, hrunning⟩ | hservice
      · have hrun : p.step i = p.runMachine i w.thread b := by
          rw [step, hw]
          simp only [hrunning, stepIn]
        rw [hrun] at hq
        exact fits_of_runMachine hw hq
      · exact absurd hq ((serviceStep_step hbefore hservice).not_requesting hbefore op m)
    · have hafter := hchange.threadState?_eq ha hbefore
      rw [hafter] at hq
      exact hp i op m (hq ▸ hbefore)
  · rw [henters.phase] at hphase'
    cases hphase'

theorem Fetched.performAll (hp : p.Fetched) {actions : List Action} (h : p.performAll actions = some q) :
    q.Fetched :=
  perform_induct Fetched.step hp h

theorem fetched_process (image : Image) (settings : Settings) (slot : FileSlot) (stdin : Bytes) :
    (image.process settings slot stdin).Fetched := by
  intro i op m h
  cases h

end Requests

/-- What services leave behind, from a request in any state that a process reaches to the end of the service,
whatever the other threads do meanwhile. After a fault the machine of the thread is as it was, and its steps have
changed nothing shared; or the service was one that answers with a result, its work is done as on success, and
the result could not be stored. -/
theorem service_outcome (image : Image) (settings : Settings) (slot : FileSlot) (stdin : Bytes)
    (before during : List Action) (p q : Process) (i : Nat) (op : Opcode) (m : Machine)
    (hp : (image.process settings slot stdin).performAll before = some p)
    (hi : p.threadState? i = some (.requesting op, m)) (hq : p.performAll during = some q)
    (hin : InService i (p.trail during)) :
    (∀ fault m', q.threadState? i = some (.leaving (some fault), m') →
      m' = m ∧ Failed i m op fault (turns i (p.trail during)) ∧
        ∃ s, (turns i (p.trail during)).getLast? = some s ∧ q = s.step i) ∧
    ∀ m', q.threadState? i = some (.serving, m') → ∀ operand, op.resultOperand? = some operand →
      Answered i m op operand (turns i (p.trail during)) := by
  have hfits (hop : op.resultOperand?.isSome = true) : m.decoder.record.Fits op := by
    rcases (fetched_process image settings slot stdin).performAll hp i op m hi with rfl | hfits
    · cases hop
    · exact hfits
  have hservice : (p.phase? i).any Phase.isService = true := by
    rw [phase?_of_threadState? hi]
    rfl
  obtain ⟨phase, m'', hstate, hcourse, hmachine⟩ := course_performAll hfits hi hq hin
  have hlast := inService_or_last hservice hq hin
  generalize turns i (p.trail during) = rs at hcourse hlast ⊢
  constructor
  · intro fault m' hend
    obtain ⟨rfl, rfl⟩ := Prod.mk.inj (Option.some.inj (hstate.symm.trans hend))
    rw [phase?_of_threadState? hend] at hlast
    refine ⟨hmachine.resolve_left (by simp), ?_, hlast.resolve_left (by simp [Phase.isService])⟩
    cases hcourse with
    | failed h => exact h
    | safe _ hsafe => cases hsafe
  · intro m' hend operand hop
    obtain ⟨rfl, rfl⟩ := Prod.mk.inj (Option.some.inj (hstate.symm.trans hend))
    cases hcourse with
    | answered hop' h =>
      obtain rfl := Option.some.inj (hop'.symm.trans hop)
      exact h
    | safe hnone _ =>
      -- services that end here without a store have no result
      rw [hnone] at hop
      cases hop

/-- A program that reads two bytes of its data file to the start of its memory, which has four bytes, and stores
their number at address 100. -/
def readToNowhere : Image :=
  Image.make [0x28, 0x00, 0x00, 0x00, 0x00, 0x00, 0x00, 0x00, 0x08, 0x24, 0xC0, 0x00, 0x00, 0x00, 0x00, 0x00,
    0x00, 0x0C, 0x80, 0x10, 0x49, 0x80] [] 4

/-- The two bytes are in the memory when the store fails. -/
theorem service_outcome_readToNowhere :
    ∃ p q m, (readToNowhere.process { dataFile := some "data" } (.regular [7, 8, 9]) []).performAll
        [.start, .boot, .boot, .advance 0, .advance 0, .advance 0, .advance 0] = some p ∧
      p.threadState? 0 = some (.requesting .read, m) ∧
      p.performAll [.advance 0, .advance 0] = some q ∧
      InService 0 (p.trail [.advance 0, .advance 0]) ∧
      q.threadState? 0 = some (.leaving (some (.memoryRange 100 1 4)), m) ∧
      Failed 0 m .read (.memoryRange 100 1 4) (turns 0 (p.trail [.advance 0, .advance 0])) ∧
      p.memory = ⟨#[0, 0, 0, 0]⟩ ∧ q.memory = ⟨#[7, 8, 0, 0]⟩ := by
  have hbefore : ((readToNowhere.process { dataFile := some "data" } (.regular [7, 8, 9]) []).performAll
      [.start, .boot, .boot, .advance 0, .advance 0, .advance 0, .advance 0]).map (fun p =>
        (p.phase? 0, p.memory, decide (InService 0 (p.trail [.advance 0, .advance 0])))) =
      some (some (.requesting .read), ⟨#[0, 0, 0, 0]⟩, true) := by
    decide +kernel
  have hafter : ((readToNowhere.process { dataFile := some "data" } (.regular [7, 8, 9]) []).performAll
      ([.start, .boot, .boot, .advance 0, .advance 0, .advance 0, .advance 0] ++
        [.advance 0, .advance 0])).map (fun q => (q.phase? 0, q.memory)) =
      some (some (.leaving (some (.memoryRange 100 1 4))), ⟨#[7, 8, 0, 0]⟩) := by
    decide +kernel
  obtain ⟨q, hrun, hend⟩ := Option.map_eq_some_iff.mp hafter
  obtain ⟨p, hp, hq⟩ := performAll_append.mp hrun
  rw [hp, Option.map_some] at hbefore
  obtain ⟨hphase, hrest⟩ := Prod.mk.inj (Option.some.inj hbefore)
  obtain ⟨hmemory, hin⟩ := Prod.mk.inj hrest
  obtain ⟨hend, hmemory'⟩ := Prod.mk.inj hend
  obtain ⟨w, hw, hrequest⟩ := phase?_eq_some_iff.mp hphase
  obtain ⟨w', hw', hleaving⟩ := phase?_eq_some_iff.mp hend
  have hi := threadState?_of_getElem? hw
  have hi' := threadState?_of_getElem? hw'
  rw [hrequest] at hi
  rw [hleaving] at hi'
  have hservice := of_decide_eq_true hin
  obtain ⟨hfailed, -⟩ := service_outcome _ _ _ _ _ _ p q 0 _ _ hp hi hq hservice
  obtain ⟨hsame, houtcome, -⟩ := hfailed _ _ hi'
  rw [hsame] at hi'
  exact ⟨p, q, _, hp, hi, hq, hservice, hi', houtcome, hmemory, hmemory'⟩

end Process

end PrefixVM
