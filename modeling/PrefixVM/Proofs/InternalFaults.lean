import PrefixVM.Proofs.MachineFaults
import PrefixVM.Proofs.Schedules

/-!
Faults of a process. In every phase a thread can rely on what its next step needs: its machine stands inside the
code, an operation that it hands over has a service and all its operands, and a fault that it leaves with is one
that may be reported. This is kept by every action, and so internal faults are never raised, and those that a
thread deals with by stopping never become the result of the process.
-/
namespace PrefixVM

/-- The operations that a process has a service for. -/
def Opcode.isServiced : Opcode → Bool
  | .createThread | .joinThread | .read | .write | .consoleRead | .consoleWrite | .lock | .unlock | .halt
  | .padding | .stopped => true
  | _ => false

theorem Opcode.isServiced_of_surfaced {op : Opcode} (hop : op.isComputational = false)
    (hsleep : op ≠ .sleep) (hknown : op.isUnknown = false) : op.isServiced = true := by
  cases op <;> first
    | rfl
    | exact absurd rfl hsleep
    | exact absurd hop (by decide)
    | exact absurd hknown (by decide)

namespace Phase

/-- What a thread relies on in a phase of its run through a code. -/
def Sound (code : Code) (d : Decoder) : Phase → Prop
  | .requesting op => op = .stopped ∨ d.Within code ∧ d.record.Fits op ∧ op.isServiced = true
  | .storing operand _ => d.Within code ∧ ∃ op, d.record.Fits op ∧ operand < op.operandCount
  | .leaving result | .halting result | .sweeping result | .collecting _ result | .shutting result
  | .finished result => ∀ fault, result = some fault → fault.isReportable = true
  | _ => d.Within code

/-- Phases of a thread that was stopped and ends without a result. -/
def isQuiet : Phase → Bool
  | .requesting op => op = .stopped
  | .leaving result | .halting result | .sweeping result | .collecting _ result | .shutting result
  | .finished result => result.isNone
  | _ => false

end Phase

/-- The phase of a thread after a step of its machine. -/
def ThreadOutcome.phase : ThreadOutcome → Phase
  | .going a => .running a
  | .surfaced op => .requesting op

namespace Thread

variable {t : Thread} {code : Code} {memory : Memory} {sliceMs : Nat}

/-- How a step of a thread ends: in a phase that it can rely on, and if a fault is reported, then the thread
is stopped for it. -/
structure Settles (code : Code) (t : Thread) (outcome : ThreadOutcome × List Event) : Prop where
  phase : outcome.1.phase.Sound code t.machine.decoder
  fault : ∀ {j fault}, .stopped j fault ∈ outcome.2 →
    j = t.index ∧ fault.isInternal = false ∧ outcome.1 = .surfaced .stopped

theorem settles_failed {fault : Fault} (hfault : fault.isInternal = false) :
    Settles code t (t.failed fault) := by
  refine ⟨.inl rfl, ?_⟩
  intro j fault' hmem
  simp only [failed, List.mem_singleton, Event.stopped.injEq] at hmem
  obtain ⟨rfl, rfl⟩ := hmem
  exact ⟨rfl, hfault, rfl⟩

theorem settles_surface (hd : t.machine.decoder.Within code) {op : Opcode}
    (hfits : t.machine.decoder.record.Fits op) (hop : op.isComputational = false) :
    Settles code t (t.surface memory sliceMs op) := by
  unfold surface
  split
  next hsleep =>
    subst hsleep
    split
    next fault hread =>
      have hreport := Machine.readArg_reports hfits (by decide) memory fault hread
      exact settles_failed (Fault.isReportable_iff.mp hreport).1
    next => exact ⟨hd, by simp⟩
  next hsleep =>
    split
    next => exact settles_failed rfl
    next hknown =>
      have hserviced := Opcode.isServiced_of_surfaced hop hsleep (Bool.eq_false_iff.mpr hknown)
      exact ⟨.inr ⟨hd, hfits, hserviced⟩, by simp⟩

/-- A step of a thread whose machine stands inside the code. -/
theorem settles_step (hd : t.machine.decoder.Within code) (hcode : code.length < UInt32.size)
    (sliceMs : Nat) (memory : Memory) (a : Activity) :
    Settles code (t.step sliceMs memory a).2.1 (t.step sliceMs memory a).1 := by
  cases a with
  | sleeping slices remainder =>
    unfold step sleepStep
    dsimp only
    split
    next =>
      split
      · exact ⟨hd, by simp⟩
      · exact ⟨hd, by simp⟩
    next => exact ⟨hd, by simp⟩
  | computing =>
    cases hrun : t.switch.mayRun with
    | false =>
      simp only [step, hrun, Bool.false_eq_true, if_false]
      exact ⟨.inl rfl, by simp⟩
    | true =>
      simp only [step, hrun, if_true]
      rcases hstep : Core.step { machine := t.machine, memory } with ⟨fault | op, c⟩
      · exact settles_failed (Core.step_fault hd hcode hstep)
      · -- an instruction that is handed on still has its operands in the record
        cases op with
        | none => exact ⟨Core.step_within hd hstep, by simp⟩
        | some op =>
          obtain ⟨hd', hfits, hop⟩ := Core.step_surfaces hd hstep
          exact settles_surface hd' hfits hop

theorem spawn_reports (t : Thread) (index : Nat) (entry : UInt32) : Reports (t.spawn index entry) :=
  (t.machine.fork_reports entry).bind fun _ => .ok _

theorem within_of_spawn (hd : t.machine.decoder.Within code) {child : Thread} {index : Nat}
    {entry : UInt32} (h : t.spawn index entry = .ok child) : child.machine.decoder.Within code := by
  obtain ⟨hentry, rfl⟩ := spawn_eq_ok h
  rw [hd.code_eq] at hentry ⊢
  exact (Decoder.within_start code).jump (if_pos hentry)

end Thread

namespace FileLimit

theorem grant_reports (limit : Option FileLimit) (length : Nat) : Reports (grant limit length) := by
  unfold grant
  split
  next => exact .ok _
  next =>
    split
    next => exact .error rfl
    next => exact .ok _

end FileLimit

namespace DataFile

theorem read_reports (f : DataFile) (offset count : Int64) (m : Memory) (address : Int64) :
    Reports (f.read offset count m address) := by
  unfold read readContent
  split
  next => exact .ok _
  next =>
    split
    next => exact .ok _
    next => exact (m.writeBytes_reports address _).bind fun _ => .ok _

theorem write_reports (f : DataFile) (offset count : Int64) (m : Memory) (address : Int64) :
    Reports (f.write offset count m address) := by
  unfold write writeContent
  split
  next => exact .ok _
  next =>
    refine Reports.bind ?_ fun _ => .ok _
    split
    next => exact .error rfl
    next =>
      apply (m.readBytes_reports address _).bind
      intro data
      exact (FileLimit.grant_reports f.limit _).bind fun _ => .ok _

theorem openSlot_reports (slot : FileSlot) (limit : Option FileLimit) : Reports (openSlot slot limit) := by
  cases slot with
  | absent => exact .ok _
  | regular content => exact .ok _
  | blocked reason => exact .error rfl

end DataFile

namespace Process

variable {p q : Process} {a : Action} {i : Nat} {w : Worker}

theorem joinTarget_reports (p : Process) (caller : Nat) (value : Int64) :
    Reports (p.joinTarget caller value) := by
  unfold joinTarget
  split
  next => exact .error rfl
  next =>
    dsimp only
    split
    next => exact .error rfl
    next =>
      split
      next => exact .error rfl
      next =>
        split
        next => exact .ok _
        next => exact .error rfl

theorem transferArgs_reports {m : Machine} {op : Opcode} (hfits : m.decoder.record.Fits op)
    (hcount : 3 ≤ op.operandCount) (memory : Memory) : Reports (transferArgs m memory) := by
  have hread (index : Nat) (hindex : index < 3) : Reports (m.readArg memory index) :=
    Machine.readArg_reports hfits (by omega) memory
  apply (hread 0 (by decide)).bind
  intro offset
  apply (hread 1 (by decide)).bind
  intro count
  exact (hread 2 (by decide)).bind fun _ => .ok _

/-- What an action does to the threads and the log of a process, as far as faults are concerned: the entry of
the thread that takes a step, and a new entry, can rely on what they need; a thread that was stopped stays so;
and a fault that is reported is none of the internal ones, or leaves its thread stopped. -/
structure FaultStep (p : Process) (a : Action) (q : Process) : Prop where
  code : q.code = p.code
  boot : ∀ {fault}, q.boot = .failed fault → p.boot = .failed fault ∨ fault.isReportable = true
  own : ∀ {i w w'}, a = .advance i → p.workers[i]? = some w → q.workers[i]? = some w' →
    w'.phase.Sound p.code w'.thread.machine.decoder ∧
      (w.phase.isQuiet = true → w'.phase.isQuiet = true)
  new : ∀ {w'}, q.workers[p.workers.size]? = some w' →
    w'.phase.Sound p.code w'.thread.machine.decoder
  log : ∃ events, q.log.toList = p.log.toList ++ events ∧ ∀ {j fault}, .stopped j fault ∈ events →
    fault.isInternal = false ∧
      (fault.isCaught = true → ∃ phase, q.phase? j = some phase ∧ phase.isQuiet = true)

/-- All threads of a process can rely on what they need, and all faults reported so far are of the program. -/
structure Sound (code : Code) (p : Process) : Prop extends Coherent p where
  code_eq : p.code = code
  worker : ∀ {i : Nat} {w : Worker}, p.workers[i]? = some w →
    w.phase.Sound code w.thread.machine.decoder
  boot_fault : ∀ {fault}, p.boot = .failed fault → fault.isReportable = true
  log : ∀ {j fault}, .stopped j fault ∈ p.log.toList → fault.isInternal = false ∧
    (fault.isCaught = true → ∃ phase, p.phase? j = some phase ∧ phase.isQuiet = true)

theorem sound_process (image : Image) (settings : Settings) (slot : FileSlot) (stdin : Bytes) :
    (image.process settings slot stdin).Sound image.machineCode where
  toCoherent := coherent_process image settings slot stdin
  code_eq := rfl
  worker h := by cases h
  boot_fault h := by cases h
  log h := by cases h

/-- A stopped thread stays stopped. -/
theorem Sound.quiet_step (h : Change p a q) (hstep : FaultStep p a q) {phase : Phase}
    (hphase : p.phase? i = some phase) (hquiet : phase.isQuiet = true) :
    ∃ phase, q.phase? i = some phase ∧ phase.isQuiet = true := by
  rcases h.phase_step hphase with hsame | ⟨ha, w, next, hw, rfl, hnext, -⟩
  · exact ⟨phase, hsame, hquiet⟩
  · obtain ⟨w', hw', rfl⟩ := phase?_eq_some_iff.mp hnext
    exact ⟨w'.phase, hnext, (hstep.own ha hw hw').2 hquiet⟩

theorem Sound.step {code : Code} (hp : p.Sound code) (h : Change p a q) (hstep : FaultStep p a q) :
    q.Sound code where
  toCoherent := hp.toCoherent.step h
  code_eq := hstep.code.trans hp.code_eq
  worker {i w'} hw' := by
    rcases h.origin hw' with ⟨w, hw, hevolves⟩ | ⟨rfl, -⟩
    · by_cases ha : a = .advance i
      · rw [← hp.code_eq]
        exact (hstep.own ha hw hw').1
      · have hsame := hevolves.rest ha
        have hplace : w'.thread.machine.decoder = w.thread.machine.decoder := by
          rcases hevolves.place with ⟨hturn, -⟩ | ⟨hdecoder, -⟩
          · exact absurd hturn ha
          · exact hdecoder
        rw [hsame, hplace]
        exact hp.worker hw
    · rw [← hp.code_eq]
      exact hstep.new hw'
  boot_fault hboot := by
    rcases hstep.boot hboot with hbefore | hreport
    · exact hp.boot_fault hbefore
    · exact hreport
  log {j fault} hmem := by
    obtain ⟨events, hlog, hevents⟩ := hstep.log
    rw [hlog, List.mem_append] at hmem
    rcases hmem with hold | hnew
    · refine ⟨(hp.log hold).1, ?_⟩
      intro hcaught
      obtain ⟨phase, hphase, hquiet⟩ := (hp.log hold).2 hcaught
      exact Sound.quiet_step h hstep hphase hquiet
    · exact hevents hnew

theorem toList_log_report (p : Process) (events : List Event) :
    (p.report events).log.toList = p.log.toList ++ events := by
  simp [report]

/-- A step of a thread, read off its own entry. -/
theorem faultStep_of_own {w' : Worker} (hw : p.workers[i]? = some w) (events : List Event)
    (hown : q.workers[i]? = some w')
    (hkeep : (q.code, q.boot, q.log) = (p.code, p.boot, (p.report events).log))
    (hnew : ∀ {v}, q.workers[p.workers.size]? = some v →
      v.phase.Sound p.code v.thread.machine.decoder)
    (hphase : w'.phase.Sound p.code w'.thread.machine.decoder)
    (hquiet : w.phase.isQuiet = false ∨ w'.phase.isQuiet = true)
    (hevents : ∀ {j fault}, .stopped j fault ∈ events → j = i ∧ fault.isInternal = false ∧
      (fault.isCaught = true → w'.phase.isQuiet = true)) : FaultStep p (.advance i) q := by
  simp only [Prod.mk.injEq] at hkeep
  obtain ⟨hcode, hboot, hlog⟩ := hkeep
  refine ⟨hcode, fun h => .inl (hboot ▸ h), ?_, hnew, events, ?_, ?_⟩
  · intro k v v' ha hv hv'
    obtain rfl := Action.advance.inj ha
    obtain rfl := Option.some.inj (hw.symm.trans hv)
    obtain rfl := Option.some.inj (hown.symm.trans hv')
    refine ⟨hphase, ?_⟩
    intro hbefore
    rcases hquiet with hloud | hafter
    · rw [hloud] at hbefore
      cases hbefore
    · exact hafter
  · rw [hlog, toList_log_report]
  · intro j fault hmem
    obtain ⟨rfl, hinternal, hcaught⟩ := hevents hmem
    exact ⟨hinternal, fun h => ⟨w'.phase, phase?_of_getElem? hown, hcaught h⟩⟩

theorem no_new_of_size (hsize : q.workers.size = p.workers.size) {v : Worker} {P : Prop}
    (hv : q.workers[p.workers.size]? = some v) : P := by
  rw [← hsize, Array.getElem?_eq_none (Nat.le_refl _)] at hv
  cases hv

/-- A step that goes on in another phase, and reports at most what is no fault. -/
theorem faultStep_of_phase (hw : p.workers[i]? = some w) {phase : Phase} (events : List Event)
    (hworkers : q.workers = p.workers.modify i fun w => { w with phase })
    (hkeep : (q.code, q.boot, q.log) = (p.code, p.boot, (p.report events).log))
    (hevents : ∀ j fault, .stopped j fault ∉ events)
    (hphase : phase.Sound p.code w.thread.machine.decoder)
    (hquiet : w.phase.isQuiet = false ∨ phase.isQuiet = true) : FaultStep p (.advance i) q := by
  have hown : q.workers[i]? = some { w with phase } := by
    rw [hworkers, getElem?_modify_self hw]
  have hsize : q.workers.size = p.workers.size := by
    rw [hworkers, Array.size_modify]
  exact faultStep_of_own hw events hown hkeep (no_new_of_size hsize) hphase hquiet
    fun hmem => absurd hmem (hevents _ _)

/-- A step that goes on in another phase without a report. -/
theorem faultStep_silent (hw : p.workers[i]? = some w) {phase : Phase}
    (hworkers : q.workers = p.workers.modify i fun w => { w with phase })
    (hkeep : (q.code, q.boot, q.log) = (p.code, p.boot, p.log))
    (hphase : phase.Sound p.code w.thread.machine.decoder)
    (hquiet : w.phase.isQuiet = false ∨ phase.isQuiet = true) : FaultStep p (.advance i) q :=
  faultStep_of_phase hw [] hworkers hkeep (by simp) hphase hquiet

theorem faultStep_orLeave {α : Type} (hw : p.workers[i]? = some w) (hloud : w.phase.isQuiet = false)
    {value : Except Fault α} (hvalue : Reports value) {next : α → Process}
    (hnext : ∀ a, value = .ok a → FaultStep p (.advance i) (next a)) :
    FaultStep p (.advance i) (p.orLeave i value next) := by
  cases value with
  | ok a => exact hnext a rfl
  | error fault =>
    refine faultStep_silent hw rfl rfl ?_ (.inl hloud)
    intro fault' h
    cases h
    exact hvalue fault rfl

section Service

variable (hw : p.workers[i]? = some w) (hloud : w.phase.isQuiet = false)
  (hd : w.thread.machine.decoder.Within p.code)

include hw hloud hd

theorem faultStep_createThread (hfits : w.thread.machine.decoder.record.Fits .createThread) :
    FaultStep p (.advance i) (p.createThread i w.thread) := by
  unfold createThread
  split
  next => exact faultStep_silent hw rfl rfl (by simp [Phase.Sound]) (.inl hloud)
  next =>
    apply faultStep_orLeave hw hloud (w.thread.spawn_reports _ _)
    intro child hchild
    have hlt : i < p.workers.size := (Array.getElem?_eq_some_iff.mp hw).1
    let entry : Worker := { thread := child, joinable := true }
    have hpush : (p.workers.push entry)[i]? = some w := getElem?_push_of_some hw entry
    refine faultStep_of_own hw [_] (getElem?_modify_self hpush) rfl ?_ ?_ (.inl hloud) ?_
    · intro v hv
      have hentry : (p.workers.push entry)[p.workers.size]? = some v :=
        (getElem?_modify_of_ne _ _ (Nat.ne_of_lt hlt)).symm.trans hv
      rw [Array.getElem?_push_size] at hentry
      obtain rfl := Option.some.inj hentry
      exact Thread.within_of_spawn hd hchild
    · exact ⟨hd, .createThread, hfits, by decide⟩
    · simp

theorem faultStep_join (value : Int64) : FaultStep p (.advance i) (p.join i w.thread value) := by
  apply faultStep_orLeave hw hloud (p.joinTarget_reports _ _)
  intro target _
  let take (w : Worker) : Worker := { w with joinable := false }
  obtain ⟨v, hv, hthread⟩ : ∃ v, (p.workers.modify target take)[i]? = some v ∧ v.thread = w.thread := by
    rw [Array.getElem?_modify, hw]
    split
    · exact ⟨_, rfl, rfl⟩
    · exact ⟨_, rfl, rfl⟩
  refine faultStep_of_own hw [_] (getElem?_modify_self hv) rfl (no_new_of_size ?_) ?_ (.inl hloud) ?_
  · exact Array.size_modify.trans Array.size_modify
  · change v.thread.machine.decoder.Within p.code
    rw [hthread]
    exact hd
  · simp

theorem faultStep_readFile (hfits : w.thread.machine.decoder.record.Fits .read) :
    FaultStep p (.advance i) (p.readFile i w.thread.machine) := by
  apply faultStep_orLeave hw hloud (transferArgs_reports hfits (by decide) p.memory)
  intro operands _
  apply faultStep_orLeave hw hloud (p.file.read_reports _ _ _ _)
  intro transfer _
  exact faultStep_silent hw rfl rfl ⟨hd, .read, hfits, by decide⟩ (.inl hloud)

theorem faultStep_writeFile (hfits : w.thread.machine.decoder.record.Fits .write) :
    FaultStep p (.advance i) (p.writeFile i w.thread.machine) := by
  apply faultStep_orLeave hw hloud (transferArgs_reports hfits (by decide) p.memory)
  intro operands _
  apply faultStep_orLeave hw hloud (p.file.write_reports _ _ _ _)
  intro file _
  exact faultStep_silent hw rfl rfl hd (.inl hloud)

theorem faultStep_readConsole (hfits : w.thread.machine.decoder.record.Fits .consoleRead) :
    FaultStep p (.advance i) (p.readConsole i) := by
  have htrouble (j : Nat) (fault : Fault) :
      .stopped j fault ∉ (p.console.read p.stdin).trouble.toList.map Event.ofTrouble := by
    intro hmem
    obtain ⟨trouble, -, h⟩ := List.mem_map.mp hmem
    cases trouble <;> cases h
  exact faultStep_of_phase hw _ rfl rfl htrouble ⟨hd, .consoleRead, hfits, by decide⟩ (.inl hloud)

theorem faultStep_storeResult {operand : Nat} {op : Opcode}
    (hfits : w.thread.machine.decoder.record.Fits op) (hoperand : operand < op.operandCount)
    (value : Int64) : FaultStep p (.advance i) (p.storeResult i w.thread operand value) := by
  apply faultStep_orLeave hw hloud (Machine.destination_reports hfits hoperand p.memory)
  intro d _
  refine faultStep_of_own hw [] (getElem?_modify_self hw) rfl (no_new_of_size Array.size_modify) ?_
    (.inl hloud) (by simp)
  change (Core.put _ value d).machine.decoder.Within p.code
  rw [(Core.decoder_put _ value d).1]
  exact hd

theorem faultStep_takeLock (lock : Int64) (stage : LockStage) :
    FaultStep p (.advance i) (p.takeLock i w.thread lock stage) := by
  unfold takeLock
  rcases p.locks.lockStep lock w.thread.index w.thread.switch.mayRun stage with ⟨outcome, table⟩
  cases outcome with
  | acquired created =>
    refine faultStep_of_phase hw _ rfl rfl ?_ hd (.inl hloud)
    cases created <;> simp
  | abandoned => exact faultStep_silent hw rfl rfl hd (.inl hloud)
  | reentrant =>
    refine faultStep_silent hw rfl rfl ?_ (.inl hloud)
    intro fault h
    cases h
    rfl
  | pending stage => exact faultStep_silent hw rfl rfl hd (.inl hloud)

theorem faultStep_releaseLock (lock : Int64) (stage : UnlockStage) :
    FaultStep p (.advance i) (p.releaseLock i lock stage) := by
  unfold releaseLock
  rcases p.locks.unlockStep lock stage with ⟨outcome, table⟩
  cases outcome with
  | done released => exact faultStep_silent hw rfl rfl hd (.inl hloud)
  | pending => exact faultStep_silent hw rfl rfl hd (.inl hloud)

end Service

theorem faultStep_serve (hw : p.workers[i]? = some w) {op : Opcode} (hphase : w.phase = .requesting op)
    (hsound : (Phase.requesting op).Sound p.code w.thread.machine.decoder) :
    FaultStep p (.advance i) (p.serve i w.thread op) := by
  by_cases hstopped : op = .stopped
  · subst hstopped
    exact faultStep_silent hw rfl rfl (by simp [Phase.Sound]) (.inr rfl)
  · obtain ⟨hd, hfits, hop⟩ := hsound.resolve_left hstopped
    have hloud : w.phase.isQuiet = false := by
      rw [hphase]
      exact decide_eq_false hstopped
    have hread (hcount : 0 < op.operandCount) : Reports (w.thread.machine.readArg p.memory 0) :=
      Machine.readArg_reports hfits hcount p.memory
    cases op with
    | createThread => exact faultStep_createThread hw hloud hd hfits
    | joinThread =>
      exact faultStep_orLeave hw hloud (hread (by decide)) fun value _ => faultStep_join hw hloud hd value
    | read => exact faultStep_readFile hw hloud hd hfits
    | write => exact faultStep_writeFile hw hloud hd hfits
    | consoleRead => exact faultStep_readConsole hw hloud hd hfits
    | consoleWrite | lock | unlock =>
      exact faultStep_orLeave hw hloud (hread (by decide)) fun value _ =>
        faultStep_silent hw rfl rfl hd (.inl hloud)
    | halt | padding => exact faultStep_silent hw rfl rfl (by simp [Phase.Sound]) (.inl hloud)
    -- the machine carries out or stops at all other operations, so that none of them is requested
    | _ => first | exact absurd rfl hstopped | exact absurd hop (by decide)

theorem faultStep_runMachine (hw : p.workers[i]? = some w) (hindex : w.thread.index = i)
    (hcode : p.code.length < UInt32.size) {a : Activity} (hphase : w.phase = .running a)
    (hd : w.thread.machine.decoder.Within p.code) :
    FaultStep p (.advance i) (p.runMachine i w.thread a) := by
  have hloud : w.phase.isQuiet = false := by
    rw [hphase]
    rfl
  have hsettles := Thread.settles_step hd hcode p.settings.sleepSlice p.memory a
  have hthread := (Thread.step_thread p.settings.sleepSlice w.thread p.memory a).1
  unfold runMachine
  dsimp only
  rcases hstep : Thread.step p.settings.sleepSlice w.thread p.memory a with
    ⟨⟨outcome, events⟩, thread, memory⟩
  rw [hstep] at hsettles hthread
  have hsame : thread.index = i := (congrArg Thread.index hthread).trans hindex
  cases outcome with
  | going a' =>
    refine faultStep_of_own hw events (getElem?_modify_self hw) rfl (no_new_of_size Array.size_modify)
      hsettles.phase (.inl hloud) ?_
    intro j fault hmem
    obtain ⟨-, -, hend⟩ := hsettles.fault hmem
    cases hend
  | surfaced op =>
    refine faultStep_of_own hw (events ++ [.service w.thread.index op]) (getElem?_modify_self hw) rfl
      (no_new_of_size Array.size_modify) hsettles.phase (.inl hloud) ?_
    intro j fault hmem
    have hevent : .stopped j fault ∈ events := by
      simpa using hmem
    obtain ⟨rfl, hinternal, hend⟩ := hsettles.fault hevent
    obtain rfl := ThreadOutcome.surfaced.inj hend
    exact ⟨hsame, hinternal, fun _ => rfl⟩

/-- A thread on its way out keeps its result. -/
theorem quiet_of_result {result : Option Fault} {before after : Phase}
    (hbefore : before.isQuiet = result.isNone) (hafter : after.isQuiet = result.isNone) :
    before.isQuiet = false ∨ after.isQuiet = true := by
  rw [hbefore, hafter]
  cases result with
  | none => exact .inr rfl
  | some fault => exact .inl rfl

theorem faultStep_leaving (hw : p.workers[i]? = some w) (hindex : w.thread.index = i)
    {result : Option Fault} (hphase : w.phase = .leaving result)
    (hresult : ∀ fault, result = some fault → fault.isReportable = true) :
    FaultStep p (.advance i) (p.stepIn i w.thread (.leaving result)) := by
  refine faultStep_of_own hw (result.toList.map (Event.stopped w.thread.index)) (getElem?_modify_self hw)
    rfl (no_new_of_size Array.size_modify) ?_ ?_ ?_
  · dsimp only
    split
    · exact hresult
    · exact hresult
  · apply quiet_of_result (congrArg Phase.isQuiet hphase)
    dsimp only
    split
    · rfl
    · rfl
  · -- the fault was one that a thread may leave with
    intro j fault hmem
    obtain ⟨fault', hfault, heq⟩ := List.mem_map.mp hmem
    cases heq
    have hreport := hresult fault (Option.mem_toList.mp hfault)
    obtain ⟨hinternal, hcaught⟩ := Fault.isReportable_iff.mp hreport
    refine ⟨hindex, hinternal, ?_⟩
    intro h
    rw [hcaught] at h
    cases h

theorem faultStep_sweep (hw : p.workers[i]? = some w) {result : Option Fault}
    (hphase : w.phase = .sweeping result)
    (hresult : ∀ fault, result = some fault → fault.isReportable = true) :
    FaultStep p (.advance i) (p.sweep i result) := by
  let stopped (w : Worker) : Worker := { w.stop with joinable := false }
  have hmap : (p.workers.map stopped)[i]? = some (stopped w) := by
    rw [Array.getElem?_map, hw, Option.map_some]
  refine faultStep_of_own hw [] (getElem?_modify_self hmap) rfl (no_new_of_size ?_) hresult
    (quiet_of_result (congrArg Phase.isQuiet hphase) rfl) (by simp)
  exact Array.size_modify.trans Array.size_map

/-- Every step of a thread that can rely on what it needs. -/
theorem faultStep_stepIn (hw : p.workers[i]? = some w) (hindex : w.thread.index = i)
    (hcode : p.code.length < UInt32.size) (henabled : p.enabled i = true) {phase : Phase}
    (hphase : w.phase = phase) (hsound : phase.Sound p.code w.thread.machine.decoder) :
    FaultStep p (.advance i) (p.stepIn i w.thread phase) := by
  have hquiet := congrArg Phase.isQuiet hphase
  cases phase with
  | serving =>
    refine faultStep_silent hw rfl rfl ?_ (.inl hquiet)
    split
    · exact hsound
    · simp [Phase.Sound]
  | running a => exact faultStep_runMachine hw hindex hcode hphase hsound
  | requesting op => exact faultStep_serve hw hphase hsound
  | storing operand value =>
    obtain ⟨hd, op, hfits, hoperand⟩ := hsound
    exact faultStep_storeResult hw hquiet hd hfits hoperand value
  | joining target => exact faultStep_silent hw rfl rfl hsound (.inl hquiet)
  | locking lock stage => exact faultStep_takeLock hw hquiet hsound lock stage
  | unlocking lock stage => exact faultStep_releaseLock hw hquiet hsound lock stage
  | released =>
    refine faultStep_silent hw rfl rfl ?_ (.inl hquiet)
    split
    · exact hsound
    · exact hsound
  | pausing => exact faultStep_silent hw rfl rfl hsound (.inl hquiet)
  | leaving result => exact faultStep_leaving hw hindex hphase hsound
  | halting result => exact faultStep_silent hw rfl rfl hsound (quiet_of_result hquiet rfl)
  | sweeping result => exact faultStep_sweep hw hphase hsound
  | collecting threads result =>
    cases threads with
    | nil => exact faultStep_silent hw rfl rfl hsound (quiet_of_result hquiet rfl)
    | cons k rest => exact faultStep_silent hw rfl rfl hsound (quiet_of_result hquiet rfl)
  | shutting result =>
    refine faultStep_of_phase hw _ rfl rfl ?_ hsound (quiet_of_result hquiet rfl)
    intro j fault
    split <;> simp
  | finished result =>
    rw [enabled_finished hw hphase] at henabled
    cases henabled

/-- Actions that are no step of a thread. -/
theorem faultStep_of_not_advance (ha : ∀ i, a ≠ .advance i) (events : List Event)
    (hkeep : (q.code, q.log) = (p.code, (p.report events).log))
    (hevents : ∀ j fault, .stopped j fault ∉ events)
    (hboot : ∀ {fault}, q.boot = .failed fault → p.boot = .failed fault ∨ fault.isReportable = true)
    (hnew : ∀ {v}, q.workers[p.workers.size]? = some v →
      v.phase.Sound p.code v.thread.machine.decoder) : FaultStep p a q := by
  simp only [Prod.mk.injEq] at hkeep
  refine ⟨hkeep.1, hboot, fun h => absurd h (ha _), hnew, events, ?_, ?_⟩
  · rw [hkeep.2, toList_log_report]
  · intro j fault hmem
    exact absurd hmem (hevents j fault)

theorem faultStep_bootStep (h : p.bootStep = some q) : FaultStep p .boot q := by
  unfold bootStep at h
  split at h
  next =>
    obtain rfl := Option.some.inj h
    unfold openFile
    split
    next =>
      exact faultStep_of_not_advance (by simp) [] rfl (by simp) (fun h => by cases h) (no_new_of_size rfl)
    next =>
      split
      next =>
        exact faultStep_of_not_advance (by simp) [.fileOpened] rfl (by simp) (fun h => by cases h)
          (no_new_of_size rfl)
      next fault hopen =>
        refine faultStep_of_not_advance (by simp) [] rfl (by simp) ?_ (no_new_of_size rfl)
        intro fault' hboot
        cases hboot
        exact .inr (DataFile.openSlot_reports _ _ _ hopen)
  next =>
    obtain rfl := Option.some.inj h
    refine faultStep_of_not_advance (by simp) [_] rfl (by simp) (fun h => by cases h) ?_
    intro v hv
    have hmain : (p.workers.push { thread := Thread.initial p.code })[p.workers.size]? = some v := hv
    rw [Array.getElem?_push_size] at hmain
    obtain rfl := Option.some.inj hmain
    exact Decoder.within_start p.code
  next => cases h

/-- Every action of a process all of whose threads can rely on what they need. -/
theorem faultStep_perform {code : Code} (hp : p.Sound code) (hcode : code.length < UInt32.size)
    (h : p.perform a = some q) : FaultStep p a q := by
  cases a with
  | start =>
    rcases start_eq_some h with ⟨-, rfl⟩ | ⟨-, rfl⟩
    · exact faultStep_of_not_advance (by simp) [] rfl (by simp) (fun h => by cases h) (no_new_of_size rfl)
    · exact faultStep_of_not_advance (by simp) [] rfl (by simp) .inl (no_new_of_size rfl)
  | boot => exact faultStep_bootStep h
  | advance i =>
    obtain ⟨w, hw, henabled, rfl⟩ := advance_eq_some h
    have hsound := hp.worker hw
    rw [← hp.code_eq] at hcode hsound
    exact faultStep_stepIn hw (hp.index hw) hcode henabled rfl hsound
  | requestStop =>
    obtain rfl := Option.some.inj h
    exact faultStep_of_not_advance (by simp) [.stopRequested] rfl (by simp) .inl (no_new_of_size rfl)
  | finishStop =>
    obtain ⟨n, -, rfl⟩ := finishStop_eq_some h
    exact faultStep_of_not_advance (by simp) [] rfl (by simp) .inl (no_new_of_size Array.size_map)

theorem Sound.performAll {code : Code} (hp : p.Sound code) (hcode : code.length < UInt32.size)
    {actions : List Action} (h : p.performAll actions = some q) : q.Sound code :=
  perform_induct (fun hp hr => hp.step (change_perform hr) (faultStep_perform hp hcode hr)) hp h

/-- A thread raises a fault: its next instruction fails with it, the thread was stopped for it, or a service has
ended in it. -/
inductive Raises (p : Process) (i : Nat) (fault : Fault) : Prop
  | machine {w : Worker} {c : Core} (hw : p.workers[i]? = some w) (hphase : w.phase = .running .computing)
    (h : Core.step { machine := w.thread.machine, memory := p.memory } = (.error fault, c))
  | stopped (h : .stopped i fault ∈ p.log.toList)
  | service (h : p.phase? i = some (.leaving (some fault)))

/-- What a call to start a process can return: it is refused, the data file cannot be opened, or the main
thread has ended. -/
inductive Returns (p : Process) : Option Fault → Prop
  | refused {fault : Fault} (h : p.tryStart = .error fault) : Returns p (some fault)
  | unopened {fault : Fault} (h : p.boot = .failed fault) : Returns p (some fault)
  | ended {result : Option Fault} (h : p.result? = some result) : Returns p result

theorem length_machineCode_lt (image : Image) (hcode : image.code.length ≤ Header.maxCodeSize.toNat) :
    image.machineCode.length < UInt32.size := by
  have hlength : image.machineCode.length = image.code.length * 8 := Stream.length_ofCode image.code
  have hmax : Header.maxCodeSize.toNat * 8 < UInt32.size := by decide
  omega

theorem Sound.isInternal_of_raises {code : Code} (hp : p.Sound code) (hcode : code.length < UInt32.size)
    {fault : Fault} (h : p.Raises i fault) : fault.isInternal = false := by
  cases h with
  | @machine w c hw hphase hstep =>
    have hwithin : w.thread.machine.decoder.Within code := by
      have hsound := hp.worker hw
      rw [hphase] at hsound
      exact hsound
    exact Core.step_fault (c := { machine := w.thread.machine, memory := p.memory }) hwithin hcode hstep
  | stopped hmem => exact (hp.log hmem).1
  | service hphase =>
    obtain ⟨w, hw, hleaving⟩ := phase?_eq_some_iff.mp hphase
    have hsound := hp.worker hw
    rw [hleaving] at hsound
    exact (Fault.isReportable_iff.mp (hsound fault rfl)).1

theorem Sound.isReportable_of_returns {code : Code} (hp : p.Sound code) {fault : Fault}
    (h : p.Returns (some fault)) : fault.isReportable = true := by
  cases h with
  | refused hrefused =>
    unfold tryStart at hrefused
    split at hrefused
    · cases hrefused
    · cases hrefused
      rfl
  | unopened hboot => exact hp.boot_fault hboot
  | ended hresult =>
    obtain ⟨w, hw, hfinished⟩ := phase?_eq_some_iff.mp (phase?_mainIndex hresult)
    have hsound := hp.worker hw
    rw [hfinished] at hsound
    exact hsound fault rfl

/-- In a code of which every bit has an address, internal faults are never raised. The faults that a thread
deals with by stopping leave it without a result, and so the call that started the process does not return
them. -/
theorem internal_faults_unreachable (image : Image) (settings : Settings) (slot : FileSlot)
    (stdin : Bytes) (actions : List Action) (p : Process)
    (hcode : image.code.length ≤ Header.maxCodeSize.toNat)
    (hp : (image.process settings slot stdin).performAll actions = some p) :
    (∀ i fault, p.Raises i fault → fault.isInternal = false) ∧
    (∀ fault, p.Returns (some fault) → fault.isInternal = false ∧ fault.isCaught = false) ∧
    (∀ i fault, .stopped i fault ∈ p.log.toList → fault.isCaught = true →
      ∃ phase, p.phase? i = some phase ∧ phase.isQuiet = true) ∧
    (∀ fault result, .stopped Thread.mainIndex fault ∈ p.log.toList → fault.isCaught = true →
      p.result? = some result → result = none) := by
  have hlength := length_machineCode_lt image hcode
  have hsound := (sound_process image settings slot stdin).performAll hlength hp
  refine ⟨fun i fault => hsound.isInternal_of_raises hlength, ?_, ?_, ?_⟩
  · intro fault hreturns
    exact Fault.isReportable_iff.mp (hsound.isReportable_of_returns hreturns)
  · intro i fault hmem
    exact (hsound.log hmem).2
  · intro fault result hmem hcaught hresult
    obtain ⟨phase, hphase, hquiet⟩ := (hsound.log hmem).2 hcaught
    rw [phase?_mainIndex hresult] at hphase
    obtain rfl := Option.some.inj hphase
    exact Option.isNone_iff_eq_none.mp hquiet

/-- The main thread divides one by zero. -/
def divideByZero : Image :=
  Image.make [0x30, 0x00, 0x00, 0x00, 0x00, 0x00, 0x00, 0x00, 0x08, 0x4d, 0x00, 0x25, 0x80] [] 0

theorem internal_faults_unreachable_divideByZero :
    ∃ p, (divideByZero.process (.captured []) .absent []).performAll
        ([.start, .boot, .boot] ++ List.replicate 9 (.advance 0)) = some p ∧
      .stopped Thread.mainIndex (.divisionByZero 72) ∈ p.log.toList ∧ p.result? = some none ∧
      (∀ i fault, p.Raises i fault → fault.isInternal = false) ∧
      ∀ fault, p.Returns (some fault) → fault.isInternal = false ∧ fault.isCaught = false := by
  have hrun : ((divideByZero.process (.captured []) .absent []).performAll
      ([.start, .boot, .boot] ++ List.replicate 9 (.advance 0))).map (fun p =>
        (decide (.stopped Thread.mainIndex (.divisionByZero 72) ∈ p.log.toList), p.result?.isSome)) =
      some (true, true) := by
    decide +kernel
  obtain ⟨p, hp, hview⟩ := Option.map_eq_some_iff.mp hrun
  obtain ⟨hlog, hend⟩ := Prod.mk.inj hview
  have hmem := of_decide_eq_true hlog
  obtain ⟨result, hresult⟩ := Option.isSome_iff_exists.mp hend
  obtain ⟨hraises, hreturns, -, hmain⟩ := internal_faults_unreachable _ _ _ _ _ p (by decide) hp
  obtain rfl := hmain _ result hmem rfl hresult
  exact ⟨p, hp, hmem, hresult, hraises, hreturns⟩

end Process

end PrefixVM
