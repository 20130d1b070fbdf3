import PrefixVM.Process.Step

/-!
What one action can do to the thread table of a process. `Phase.Follows` is the order in which a thread goes
through its phases, and `Change` lists the nine ways in which an action changes the table and the switch of
the process. Everything that holds along all runs is derived from these two.
-/
namespace PrefixVM

namespace Phase

/-- Phases in which a thread carries out an instruction or a service, and does not wait for another
thread. -/
def isWork : Phase → Bool
  | .running _ | .requesting _ | .storing _ _ | .unlocking _ _ | .released | .pausing => true
  | _ => false

/-- Phases that a thread can enter from its work: it goes on with it, looks for more, or has to leave. -/
def isAfterWork : Phase → Bool
  | .serving | .leaving _ => true
  | phase => phase.isWork

/-- Phases on the way out of a thread, after its last instruction and its last service. -/
def isEnding : Phase → Bool
  | .leaving _ | .halting _ | .sweeping _ | .collecting _ _ | .shutting _ | .finished _ => true
  | _ => false

/-- Phases that a thread can enter while it works or takes a lock. -/
def isOrdinary : Phase → Bool
  | .serving | .running _ | .requesting _ | .storing _ _ | .locking _ _ | .unlocking _ _ | .released
  | .pausing | .leaving _ => true
  | _ => false

/-- Phases in which the main thread takes the process down. -/
def isClosing : Phase → Bool
  | .halting _ | .sweeping _ | .collecting _ _ | .shutting _ => true
  | _ => false

/-- Phases of the main thread after it has taken over the threads that nobody had joined. -/
def isSwept : Phase → Bool
  | .collecting _ _ | .shutting _ | .finished _ => true
  | _ => false

theorem isClosing_eq_false {phase : Phase} (h : phase.isOrdinary = true) : phase.isClosing = false := by
  cases phase <;> first | rfl | cases h

theorem isSwept_eq_false {phase : Phase} (h : phase.isOrdinary = true) : phase.isSwept = false := by
  cases phase <;> first | rfl | cases h

theorem isEnding_eq_false {phase : Phase} (h : phase.isWork = true) : phase.isEnding = false := by
  cases phase <;> first | rfl | cases h

end Phase

namespace Worker

/-- The worker after a step of its own thread. -/
def resume (machine : Machine) (phase : Phase) (w : Worker) : Worker :=
  { w with thread := { w.thread with machine }, phase }

/-- The next step of the thread carries out an instruction. -/
def Executes (w : Worker) : Prop :=
  w.phase = .running .computing ∧ w.thread.switch.mayRun = true

end Worker

/-- The phase of a thread after a step of its attempt to take a lock. -/
def LockOutcome.next (lock : Int64) (thread : Nat) : LockOutcome → Phase
  | .acquired _ | .abandoned => .serving
  | .reentrant => .leaving (some (.reentrantLock lock thread))
  | .pending stage => .locking lock stage

/-- All threads are told to stop and taken over by the main thread, and no thread is created any more. -/
structure Process.Swept (p : Process) : Prop where
  shuttingDown : p.shuttingDown = true
  joinable : ∀ {i : Nat} {w : Worker}, p.workers[i]? = some w → w.joinable = false
  switch : ∀ {i : Nat} {w : Worker}, p.workers[i]? = some w → w.thread.switch.mayRun = false

/-- The phases that a worker can enter with its next step, which takes the process from `p` to `q`. -/
inductive Phase.Follows (p q : Process) (w : Worker) : Phase → Prop
  | begins (h : w.phase = .serving) (hswitch : p.switch.mayRun = true) : Follows p q w (.running .computing)
  | quits (h : w.phase = .serving) (hswitch : p.switch.mayRun = false) : Follows p q w (.leaving none)
  | works {next : Phase} (h : w.phase.isWork = true) (hnext : next.isAfterWork = true) : Follows p q w next
  | asks {lock : Int64} (h : w.phase = .requesting .lock) : Follows p q w (.locking lock .look)
  | takes {lock : Int64} {stage : LockStage} {next : Phase} (h : w.phase = .locking lock stage)
    (hlocks : q.locks = (p.locks.lockStep lock w.thread.index w.thread.switch.mayRun stage).2)
    (hnext : next = (p.locks.lockStep lock w.thread.index w.thread.switch.mayRun stage).1.next lock
      w.thread.index) : Follows p q w next
  | joins {target : Nat} {t : Worker} (h : w.phase = .requesting .joinThread)
    (htarget : p.workers[target]? = some t) (hother : target ≠ w.thread.index)
    (hfree : t.joinable = true) : Follows p q w (.joining target)
  | joined {target : Nat} (h : w.phase = .joining target) (hend : p.isFinished target = true) :
    Follows p q w .serving
  | halts {result : Option Fault} (h : w.phase = .leaving result)
    (hmain : w.thread.index = Thread.mainIndex) : Follows p q w (.halting result)
  | ends {result : Option Fault} (h : w.phase = .leaving result)
    (hother : w.thread.index ≠ Thread.mainIndex) : Follows p q w (.finished result)
  | stops {result : Option Fault} (h : w.phase = .halting result) (hstop : q.switch.mayRun = false) :
    Follows p q w (.sweeping result)
  | sweeps {result : Option Fault} (h : w.phase = .sweeping result) (hswept : q.Swept) :
    Follows p q w (.collecting p.joinableThreads result)
  | collects {k : Nat} {rest : List Nat} {result : Option Fault}
    (h : w.phase = .collecting (k :: rest) result) (hend : p.isFinished k = true) :
    Follows p q w (.collecting rest result)
  | collected {result : Option Fault} (h : w.phase = .collecting [] result) :
    Follows p q w (.shutting result)
  | shuts {result : Option Fault} (h : w.phase = .shutting result) : Follows p q w (.finished result)

namespace Phase.Follows

variable {p q : Process} {w : Worker} {next : Phase}

theorem isOrdinary_of_works (hnext : next.isAfterWork = true) : next.isOrdinary = true := by
  cases next <;> first | rfl | cases hnext

theorem isOrdinary_of_takes {outcome : LockOutcome} {lock : Int64} {thread : Nat}
    (hnext : next = outcome.next lock thread) : next.isOrdinary = true := by
  rw [hnext]
  cases outcome <;> rfl

theorem into_joining {target : Nat} (h : Follows p q w (.joining target)) :
    target < p.workers.size ∧ target ≠ w.thread.index := by
  cases h with
  | works _ hnext => cases isOrdinary_of_works hnext
  | takes _ _ hnext => cases isOrdinary_of_takes hnext
  | joins _ htarget hother => exact ⟨(Array.getElem?_eq_some_iff.mp htarget).1, hother⟩

theorem into_sweeping {result : Option Fault} (h : Follows p q w (.sweeping result)) :
    q.switch.mayRun = false := by
  cases h with
  | works _ hnext => cases isOrdinary_of_works hnext
  | takes _ _ hnext => cases isOrdinary_of_takes hnext
  | stops _ hstop => exact hstop

/-- A thread goes on to take the process down with it only if it is the main thread. -/
theorem into_closing (h : Follows p q w next) (hnext : next.isClosing = true) :
    w.phase.isClosing = true ∨ w.thread.index = Thread.mainIndex := by
  cases h with
  | begins | quits | asks | joins | joined | ends | shuts => cases hnext
  | works _ hordinary =>
    rw [isClosing_eq_false (isOrdinary_of_works hordinary)] at hnext
    cases hnext
  | takes _ _ hordinary =>
    rw [isClosing_eq_false (isOrdinary_of_takes hordinary)] at hnext
    cases hnext
  | halts _ hmain => exact .inr hmain
  | stops h | sweeps h | collects h | collected h =>
    rw [h]
    exact .inl rfl

/-- The main thread collects threads, and ends, only after it has swept the table. -/
theorem into_swept (h : Follows p q w next) (hnext : next.isSwept = true)
    (hmain : w.thread.index = Thread.mainIndex) :
    w.phase.isSwept = true ∨ q.Swept := by
  cases h with
  | begins | quits | asks | joins | joined | halts | stops => cases hnext
  | works _ hordinary =>
    rw [isSwept_eq_false (isOrdinary_of_works hordinary)] at hnext
    cases hnext
  | takes _ _ hordinary =>
    rw [isSwept_eq_false (isOrdinary_of_takes hordinary)] at hnext
    cases hnext
  | ends _ hother => exact absurd hmain hother
  | sweeps _ hswept => exact .inr hswept
  | collects h | collected h | shuts h =>
    rw [h]
    exact .inl rfl

/-- A thread on its way out does not turn back. -/
theorem isEnding (h : Follows p q w next) (hw : w.phase.isEnding = true) : next.isEnding = true := by
  cases h with
  | quits | halts | ends | stops | sweeps | collects | collected | shuts => rfl
  | works h =>
    rw [isEnding_eq_false h] at hw
    cases hw
  | begins h | asks h | takes h | joins h | joined h =>
    rw [h] at hw
    cases hw

theorem of_serving (h : Follows p q w next) (hw : w.phase = .serving) (hswitch : p.switch.mayRun = false) :
    next = .leaving none := by
  cases h with
  | quits => rfl
  | begins _ hrun =>
    rw [hswitch] at hrun
    cases hrun
  | works h | asks h | takes h | joins h | joined h | halts h | ends h | stops h | sweeps h | collects h
  | collected h | shuts h =>
    rw [hw] at h
    cases h

theorem of_locking (h : Follows p q w next) {lock : Int64} {stage : LockStage}
    (hw : w.phase = .locking lock stage) :
    q.locks = (p.locks.lockStep lock w.thread.index w.thread.switch.mayRun stage).2 ∧
      next = (p.locks.lockStep lock w.thread.index w.thread.switch.mayRun stage).1.next lock
        w.thread.index := by
  cases h with
  | takes h hlocks hnext =>
    rw [hw] at h
    obtain ⟨rfl, rfl⟩ := Phase.locking.inj h
    exact ⟨hlocks, hnext⟩
  | begins h | quits h | works h | asks h | joins h | joined h | halts h | ends h | stops h | sweeps h
  | collects h | collected h | shuts h =>
    rw [hw] at h
    cases h

theorem of_joining (h : Follows p q w next) {target : Nat} (hw : w.phase = .joining target) :
    p.isFinished target = true := by
  cases h with
  | joined h hend =>
    rw [hw] at h
    obtain rfl := Phase.joining.inj h
    exact hend
  | begins h | quits h | works h | asks h | takes h | joins h | halts h | ends h | stops h | sweeps h
  | collects h | collected h | shuts h =>
    rw [hw] at h
    cases h

theorem of_collecting (h : Follows p q w next) {threads : List Nat} {result : Option Fault}
    (hw : w.phase = .collecting threads result) :
    threads = [] ∨ ∃ k rest, threads = k :: rest ∧ p.isFinished k = true ∧
      next = .collecting rest result := by
  cases h with
  | collected h =>
    rw [hw] at h
    exact .inl (Phase.collecting.inj h).1
  | collects h hend =>
    rw [hw] at h
    obtain ⟨rfl, rfl⟩ := Phase.collecting.inj h
    exact .inr ⟨_, _, rfl, hend, rfl⟩
  | begins h | quits h | works h | asks h | takes h | joins h | joined h | halts h | ends h | stops h
  | sweeps h | shuts h =>
    rw [hw] at h
    cases h

theorem not_finished (h : Follows p q w next) (result : Option Fault) : w.phase ≠ .finished result := by
  intro hw
  cases h with
  | begins h | quits h | works h | asks h | takes h | joins h | joined h | halts h | ends h | stops h
  | sweeps h | collects h | collected h | shuts h =>
    rw [hw] at h
    cases h

end Phase.Follows

/-- A step of a thread changes nothing of the thread but its machine, and that only when it carries out an
instruction. -/
theorem Thread.step_thread (sliceMs : Nat) (t : Thread) (memory : Memory) (a : Activity) :
    let t' := (Thread.step sliceMs t memory a).2.1
    t' = { t with machine := t'.machine } ∧
      (a = .computing ∧ t.switch.mayRun = true ∨ t'.machine = t.machine) := by
  intro t'
  cases a with
  | sleeping slices remainder => exact ⟨rfl, .inr rfl⟩
  | computing =>
    cases hrun : t.switch.mayRun with
    | false =>
      have ht' : t' = t := by
        simp only [t', Thread.step, hrun, Bool.false_eq_true, if_false]
      rw [ht']
      exact ⟨rfl, .inr rfl⟩
    | true =>
      refine ⟨?_, .inl ⟨rfl, rfl⟩⟩
      simp only [t', Thread.step, hrun, if_true]
      rcases Core.step { machine := t.machine, memory } with ⟨outcome, c⟩
      rcases outcome with fault | op
      · rfl
      · cases op <;> rfl

/-- A new thread has the registers of its creator, and nothing else of it. -/
theorem Thread.spawn_eq_ok {t child : Thread} {index : Nat} {entry : UInt32}
    (h : t.spawn index entry = .ok child) :
    entry.toNat < t.machine.decoder.code.length ∧ child =
      { index
        machine :=
          { registers := t.machine.registers
            decoder := { code := t.machine.decoder.code, cursor := entry.toNat } } } := by
  unfold Thread.spawn Machine.fork at h
  by_cases hentry : entry.toNat < t.machine.decoder.code.length
  · have hstart : Decoder.startAt t.machine.decoder.code entry =
        .ok { code := t.machine.decoder.code, cursor := entry.toNat } := if_pos hentry
    rw [hstart] at h
    exact ⟨hentry, (Except.ok.inj h).symm⟩
  · have hstart : Decoder.startAt t.machine.decoder.code entry =
        .error (.jumpOutOfRange entry t.machine.decoder.code.length) := if_neg hentry
    rw [hstart] at h
    cases h

namespace Process

/-- What a step of a worker leaves alone, whatever it does to the table: all that the course of the other
threads depends on, and the locks unless it takes or releases one. -/
structure Keeps (p : Process) (w : Worker) (q : Process) : Prop where
  switch : q.switch = p.switch
  boot : q.boot = p.boot
  shuttingDown : q.shuttingDown = p.shuttingDown
  pendingStops : q.pendingStops = p.pendingStops
  locks : q.locks = p.locks ∨
    (∃ lock stage, w.phase = .locking lock stage ∧
      q.locks = (p.locks.lockStep lock w.thread.index w.thread.switch.mayRun stage).2) ∨
    ∃ lock stage, w.phase = .unlocking lock stage ∧ q.locks = (p.locks.unlockStep lock stage).2

/-- The ways in which an action changes a process. -/
inductive Change (p : Process) : Action → Process → Prop
  /-- Neither the table nor a switch is touched: a call to start the process, or the opening of its data
  file. -/
  | prepares {a : Action} {q : Process} (ha : ∀ i, a ≠ .advance i) (hworkers : q.workers = p.workers)
    (hswitch : q.switch = p.switch) (hdown : q.shuttingDown = p.shuttingDown)
    (hpending : q.pendingStops = p.pendingStops) (hboot : p.boot = .running → q.boot = .running)
    (hlocks : q.locks = p.locks) : Change p a q
  | enters (hboot : p.boot = .opened) : Change p .boot p.createMain
  | requests : Change p .requestStop p.requestStop
  | delivers {n : Nat} (hpending : p.pendingStops = n + 1) :
    Change p .finishStop { p.stopThreads with pendingStops := n }
  /-- A thread takes a step that changes no entry of the table but its own. -/
  | moves {i : Nat} {w : Worker} {q : Process} (machine : Machine) (phase : Phase)
    (hw : p.workers[i]? = some w) (hphase : Phase.Follows p q w phase)
    (hmachine : w.Executes ∨
      machine.decoder = w.thread.machine.decoder ∧ machine.stack = w.thread.machine.stack)
    (hworkers : q.workers = p.workers.modify i (Worker.resume machine phase))
    (hkeeps : Keeps p w q) : Change p (.advance i) q
  | creates {i : Nat} {w : Worker} {q : Process} (child : Thread) (hw : p.workers[i]? = some w)
    (hphase : w.phase = .requesting .createThread) (hdown : p.shuttingDown = false)
    (hswitch : p.switch.mayRun = true) (hindex : child.index = p.workers.size)
    (hfresh : child.switch.mayRun = true)
    (hworkers : q.workers = (p.workers.push { thread := child, joinable := true }).modify i fun w =>
      { w with phase := .storing 0 (Int64.ofNat p.workers.size) })
    (hkeeps : Keeps p w q) : Change p (.advance i) q
  | joins {i target : Nat} {w t : Worker} {q : Process} (hw : p.workers[i]? = some w)
    (hphase : w.phase = .requesting .joinThread) (htarget : p.workers[target]? = some t)
    (hother : target ≠ w.thread.index) (hfree : t.joinable = true)
    (hworkers : q.workers = (p.workers.modify target fun w => { w with joinable := false }).modify i
      fun w => { w with phase := .joining target })
    (hkeeps : Keeps p w q) : Change p (.advance i) q
  | halts {i : Nat} {w : Worker} {result : Option Fault} (hw : p.workers[i]? = some w)
    (hphase : w.phase = .halting result) :
    Change p (.advance i) ({ p with switch := p.switch.stop.2 }.setPhase i (.sweeping result))
  | sweeps {i : Nat} {w : Worker} {result : Option Fault} (hw : p.workers[i]? = some w)
    (hphase : w.phase = .sweeping result) : Change p (.advance i) (p.sweep i result)

variable {p q : Process} {i : Nat} {w : Worker}

theorem Keeps.same (h : (q.switch, q.boot, q.shuttingDown, q.pendingStops, q.locks) =
    (p.switch, p.boot, p.shuttingDown, p.pendingStops, p.locks)) : Keeps p w q := by
  simp only [Prod.mk.injEq] at h
  obtain ⟨hswitch, hboot, hdown, hpending, hlocks⟩ := h
  exact ⟨hswitch, hboot, hdown, hpending, .inl hlocks⟩

theorem modify_congr {f g : Worker → Worker} (hw : p.workers[i]? = some w) (h : f w = g w) :
    p.workers.modify i f = p.workers.modify i g := by
  apply Array.ext_getElem?
  intro k
  rw [Array.getElem?_modify, Array.getElem?_modify]
  split
  next hk => rw [← hk, hw, Option.map_some, Option.map_some, h]
  next => rfl

/-- A step that only goes on in another phase. -/
theorem change_of_phase (hw : p.workers[i]? = some w) {phase : Phase} (hphase : Phase.Follows p q w phase)
    (hworkers : q.workers = p.workers.modify i fun w => { w with phase })
    (hkeeps : Keeps p w q) : Change p (.advance i) q := by
  refine .moves w.thread.machine phase hw hphase (.inr ⟨rfl, rfl⟩) ?_ hkeeps
  rw [hworkers]
  exact modify_congr hw rfl

/-- A step in the middle of an instruction or a service that goes on with it, or looks for the next one. -/
theorem change_of_work (hw : p.workers[i]? = some w) (hwork : w.phase.isWork = true) {phase : Phase}
    (hphase : phase.isAfterWork = true)
    (hworkers : q.workers = p.workers.modify i fun w => { w with phase })
    (hkeeps : Keeps p w q) : Change p (.advance i) q :=
  change_of_phase hw (.works hwork hphase) hworkers hkeeps

theorem change_orLeave {α : Type} (hw : p.workers[i]? = some w) (hwork : w.phase.isWork = true)
    {value : Except Fault α} {next : α → Process}
    (hnext : ∀ a, value = .ok a → Change p (.advance i) (next a)) :
    Change p (.advance i) (p.orLeave i value next) := by
  cases value with
  | ok a => exact hnext a rfl
  | error fault => exact change_of_work hw hwork rfl rfl (.same rfl)

theorem change_createThread (hw : p.workers[i]? = some w) (hphase : w.phase = .requesting .createThread) :
    Change p (.advance i) (p.createThread i w.thread) := by
  have hwork : w.phase.isWork = true := by rw [hphase]; rfl
  unfold createThread
  split
  next => exact change_of_work hw hwork rfl rfl (.same rfl)
  next hopen =>
    rw [Bool.or_eq_true, not_or, Bool.not_eq_true, Bool.not_eq_true', Bool.not_eq_false] at hopen
    apply change_orLeave hw hwork
    intro child hchild
    obtain ⟨-, rfl⟩ := Thread.spawn_eq_ok hchild
    exact .creates _ hw hphase hopen.1 hopen.2 rfl rfl rfl (.same rfl)

theorem joinTarget_eq_ok {caller target : Nat} {value : Int64} (h : p.joinTarget caller value = .ok target) :
    ∃ t, p.workers[target]? = some t ∧ target ≠ caller ∧ t.joinable = true := by
  unfold joinTarget at h
  split at h
  · cases h
  · dsimp only at h
    split at h
    · cases h
    next t ht =>
      split at h
      · cases h
      next hother =>
        split at h
        next hfree =>
          obtain rfl := Except.ok.inj h
          exact ⟨t, ht, hother, hfree⟩
        next => cases h

theorem change_join (hw : p.workers[i]? = some w) (hphase : w.phase = .requesting .joinThread)
    (value : Int64) : Change p (.advance i) (p.join i w.thread value) := by
  have hwork : w.phase.isWork = true := by rw [hphase]; rfl
  apply change_orLeave hw hwork
  intro target htarget
  obtain ⟨t, ht, hother, hfree⟩ := joinTarget_eq_ok htarget
  exact .joins hw hphase ht hother hfree rfl (.same rfl)

theorem change_readFile (hw : p.workers[i]? = some w) (hwork : w.phase.isWork = true) :
    Change p (.advance i) (p.readFile i w.thread.machine) := by
  apply change_orLeave hw hwork
  intro operands _
  apply change_orLeave hw hwork
  intro transfer _
  exact change_of_work hw hwork rfl rfl (.same rfl)

theorem change_writeFile (hw : p.workers[i]? = some w) (hwork : w.phase.isWork = true) :
    Change p (.advance i) (p.writeFile i w.thread.machine) := by
  apply change_orLeave hw hwork
  intro operands _
  apply change_orLeave hw hwork
  intro file _
  exact change_of_work hw hwork rfl rfl (.same rfl)

theorem change_serve (hw : p.workers[i]? = some w) {op : Opcode} (hphase : w.phase = .requesting op) :
    Change p (.advance i) (p.serve i w.thread op) := by
  have hwork : w.phase.isWork = true := by rw [hphase]; rfl
  unfold serve
  split
  · exact change_createThread hw hphase
  · exact change_orLeave hw hwork fun value _ => change_join hw hphase value
  · exact change_readFile hw hwork
  · exact change_writeFile hw hwork
  · exact change_of_work hw hwork rfl rfl (.same rfl)
  · exact change_orLeave hw hwork fun value _ =>
      change_of_work hw hwork rfl rfl (.same rfl)
  · exact change_orLeave hw hwork fun lock _ =>
      change_of_phase hw (.asks hphase) rfl (.same rfl)
  · exact change_orLeave hw hwork fun lock _ =>
      change_of_work hw hwork rfl rfl (.same rfl)
  all_goals exact change_of_work hw hwork rfl rfl (.same rfl)

theorem change_storeResult (hw : p.workers[i]? = some w) (hwork : w.phase.isWork = true) (operand : Nat)
    (value : Int64) : Change p (.advance i) (p.storeResult i w.thread operand value) := by
  apply change_orLeave hw hwork
  intro d _
  exact .moves _ .serving hw (.works hwork rfl) (.inr (Core.decoder_put _ value d)) rfl
    (.same rfl)

theorem takeLock_effect (p : Process) (i : Nat) (t : Thread) (lock : Int64) (stage : LockStage) :
    let step := p.locks.lockStep lock t.index t.switch.mayRun stage
    let q := p.takeLock i t lock stage
    q.workers = p.workers.modify i (fun w => { w with phase := step.1.next lock t.index }) ∧
      q.locks = step.2 ∧ q.switch = p.switch ∧ q.boot = p.boot ∧ q.shuttingDown = p.shuttingDown ∧
      q.pendingStops = p.pendingStops := by
  dsimp only
  unfold takeLock
  rcases p.locks.lockStep lock t.index t.switch.mayRun stage with ⟨outcome, table⟩
  cases outcome <;> exact ⟨rfl, rfl, rfl, rfl, rfl, rfl⟩

theorem change_takeLock (hw : p.workers[i]? = some w) {lock : Int64} {stage : LockStage}
    (hphase : w.phase = .locking lock stage) :
    Change p (.advance i) (p.takeLock i w.thread lock stage) := by
  obtain ⟨hworkers, hlocks, hswitch, hboot, hdown, hpending⟩ := takeLock_effect p i w.thread lock stage
  exact change_of_phase hw (.takes hphase hlocks rfl) hworkers
    ⟨hswitch, hboot, hdown, hpending, .inr (.inl ⟨lock, stage, hphase, hlocks⟩)⟩

theorem change_releaseLock (hw : p.workers[i]? = some w) {lock : Int64} {stage : UnlockStage}
    (hphase : w.phase = .unlocking lock stage) : Change p (.advance i) (p.releaseLock i lock stage) := by
  have hwork : w.phase.isWork = true := by rw [hphase]; rfl
  unfold releaseLock
  rcases hstep : p.locks.unlockStep lock stage with ⟨outcome, table⟩
  have hlocks : table = (p.locks.unlockStep lock stage).2 := by rw [hstep]
  cases outcome with
  | done released =>
    exact change_of_work hw hwork rfl rfl
      ⟨rfl, rfl, rfl, rfl, .inr (.inr ⟨lock, stage, hphase, hlocks⟩)⟩
  | pending =>
    exact change_of_work hw hwork rfl rfl
      ⟨rfl, rfl, rfl, rfl, .inr (.inr ⟨lock, stage, hphase, hlocks⟩)⟩

theorem change_runMachine (hw : p.workers[i]? = some w) {a : Activity} (hphase : w.phase = .running a) :
    Change p (.advance i) (p.runMachine i w.thread a) := by
  have hwork : w.phase.isWork = true := by rw [hphase]; rfl
  obtain ⟨hthread, hmachine⟩ := Thread.step_thread p.settings.sleepSlice w.thread p.memory a
  unfold runMachine
  dsimp only
  rcases hstep : Thread.step p.settings.sleepSlice w.thread p.memory a with ⟨⟨outcome, events⟩, thread, memory⟩
  rw [hstep] at hthread hmachine
  -- the place of the thread in the code changes only with an instruction, not while it sleeps or is stopped
  have hcause : w.Executes ∨
      thread.machine.decoder = w.thread.machine.decoder ∧ thread.machine.stack = w.thread.machine.stack := by
    rcases hmachine with ⟨rfl, hrun⟩ | hsame
    · exact .inl ⟨hphase, hrun⟩
    · exact .inr ⟨congrArg _ hsame, congrArg _ hsame⟩
  -- the step returns the whole thread, of which only the machine is new
  have hresume (phase : Phase) : p.workers.modify i (fun w => { w with thread, phase }) =
      p.workers.modify i (Worker.resume thread.machine phase) :=
    modify_congr hw (congrArg (fun thread => { w with thread, phase }) hthread)
  cases outcome with
  | going a =>
    exact .moves _ (.running a) hw (.works hwork rfl) hcause (hresume _) (.same rfl)
  | surfaced op =>
    exact .moves _ (.requesting op) hw (.works hwork rfl) hcause (hresume _) (.same rfl)

theorem enabled_joining (hw : p.workers[i]? = some w) {target : Nat} (hphase : w.phase = .joining target) :
    p.enabled i = p.isFinished target := by
  simp only [enabled, hw, hphase]

theorem enabled_collecting (hw : p.workers[i]? = some w) {k : Nat} {rest : List Nat} {result : Option Fault}
    (hphase : w.phase = .collecting (k :: rest) result) : p.enabled i = p.isFinished k := by
  simp only [enabled, hw, hphase]

theorem enabled_finished (hw : p.workers[i]? = some w) {result : Option Fault}
    (hphase : w.phase = .finished result) : p.enabled i = false := by
  simp only [enabled, hw, hphase]

theorem change_stepIn (hw : p.workers[i]? = some w) (henabled : p.enabled i = true) :
    Change p (.advance i) (p.stepIn i w.thread w.phase) := by
  cases hphase : w.phase with
  | serving =>
    cases hswitch : p.switch.mayRun with
    | true =>
      refine change_of_phase hw (.begins hphase hswitch) ?_ (.same rfl)
      simp only [stepIn, hswitch, if_true]
      rfl
    | false =>
      refine change_of_phase hw (.quits hphase hswitch) ?_ (.same rfl)
      simp only [stepIn, hswitch, Bool.false_eq_true, if_false]
      rfl
  | running a => exact change_runMachine hw hphase
  | requesting op => exact change_serve hw hphase
  | storing operand value => exact change_storeResult hw (by rw [hphase]; rfl) operand value
  -- enabled only when the thread that is waited for has finished
  | joining target =>
    rw [enabled_joining hw hphase] at henabled
    exact change_of_phase hw (.joined hphase henabled) rfl (.same rfl)
  | locking lock stage => exact change_takeLock hw hphase
  | unlocking lock stage => exact change_releaseLock hw hphase
  | released =>
    refine change_of_work hw (by rw [hphase]; rfl) ?_ rfl (.same rfl)
    cases p.locks.holdsAny w.thread.index with
    | true => rfl
    | false => rfl
  | pausing => exact change_of_work hw (by rw [hphase]; rfl) rfl rfl (.same rfl)
  | leaving result =>
    by_cases hmain : w.thread.index = Thread.mainIndex
    · refine change_of_phase hw (.halts hphase hmain) ?_ (.same rfl)
      simp only [stepIn, hmain, if_true]
      rfl
    · refine change_of_phase hw (.ends hphase hmain) ?_ (.same rfl)
      simp only [stepIn, hmain, if_false]
      rfl
  | halting result => exact .halts hw hphase
  | sweeping result => exact .sweeps hw hphase
  | collecting threads result =>
    cases threads with
    | nil => exact change_of_phase hw (.collected hphase) rfl (.same rfl)
    | cons k rest =>
      rw [enabled_collecting hw hphase] at henabled
      exact change_of_phase hw (.collects hphase henabled) rfl (.same rfl)
  | shutting result => exact change_of_phase hw (.shuts hphase) rfl (.same rfl)
  | finished result =>
    rw [enabled_finished hw hphase] at henabled
    cases henabled

theorem advance_eq_some (h : p.advance i = some q) :
    ∃ w, p.workers[i]? = some w ∧ p.enabled i = true ∧ q = p.stepIn i w.thread w.phase := by
  unfold advance at h
  split at h
  next henabled =>
    have hq := Option.some.inj h
    cases hw : p.workers[i]? with
    | none =>
      rw [enabled, hw] at henabled
      cases henabled
    | some w =>
      rw [step, hw] at hq
      exact ⟨w, rfl, henabled, hq.symm⟩
  next => cases h

theorem change_bootStep (h : p.bootStep = some q) : Change p .boot q := by
  unfold bootStep at h
  split at h
  next hboot =>
    obtain rfl := Option.some.inj h
    have hidle : p.boot ≠ .running := by rw [hboot]; decide
    unfold openFile
    split
    · exact .prepares (by simp) rfl rfl rfl rfl (fun hrun => absurd hrun hidle) rfl
    · split
      · exact .prepares (by simp) rfl rfl rfl rfl (fun hrun => absurd hrun hidle) rfl
      · exact .prepares (by simp) rfl rfl rfl rfl (fun hrun => absurd hrun hidle) rfl
  next hboot =>
    obtain rfl := Option.some.inj h
    exact .enters hboot
  next => cases h

/-- A call to start is carried out once, and refused without any change from then on. -/
theorem start_eq_some (h : p.perform .start = some q) :
    p.boot = .idle ∧ q = { p with boot := .begun } ∨ p.boot ≠ .idle ∧ q = p := by
  simp only [perform, tryStart] at h
  cases hboot : p.boot with
  | idle =>
    rw [hboot] at h
    exact .inl ⟨rfl, (Option.some.inj h).symm⟩
  | begun | opened | running | failed =>
    rw [hboot] at h
    exact .inr ⟨by simp, (Option.some.inj h).symm⟩

theorem finishStop_eq_some (h : p.finishStop = some q) :
    ∃ n, p.pendingStops = n + 1 ∧ q = { p.stopThreads with pendingStops := n } := by
  unfold finishStop at h
  split at h
  next => cases h
  next n hpending => exact ⟨n, hpending, (Option.some.inj h).symm⟩

theorem change_start (h : p.perform .start = some q) : Change p .start q := by
  rcases start_eq_some h with ⟨hboot, rfl⟩ | ⟨-, rfl⟩
  · have hidle : p.boot ≠ .running := by rw [hboot]; decide
    exact .prepares (by simp) rfl rfl rfl rfl (fun hrun => absurd hrun hidle) rfl
  · exact .prepares (by simp) rfl rfl rfl rfl id rfl

/-- Every action that is carried out is one of the changes. -/
theorem change_perform {a : Action} (h : p.perform a = some q) : Change p a q := by
  cases a with
  | start => exact change_start h
  | boot => exact change_bootStep h
  | advance i =>
    obtain ⟨w, hw, henabled, rfl⟩ := advance_eq_some h
    exact change_stepIn hw henabled
  | requestStop =>
    obtain rfl := Option.some.inj h
    exact .requests
  | finishStop =>
    obtain ⟨n, hpending, rfl⟩ := finishStop_eq_some h
    exact .delivers hpending

end Process

end PrefixVM
