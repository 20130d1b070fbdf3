import PrefixVM.Proofs.Schedules

/-!
Cancellation. A thread is retired once it cannot find any more work, and stays so. When a request to stop has
been carried out, each thread has its own switch thrown or is retired, whichever way the request, the start of
the process and the creation of threads were interleaved; so no thread carries out another instruction.
-/
namespace PrefixVM.Process

variable {p q : Process} {a : Action} {i : Nat} {w : Worker}

/-- The thread is on its way out, or it will be with its next look at the switch of the process. -/
def Retired (p : Process) (i : Nat) : Prop :=
  ∃ w, p.workers[i]? = some w ∧
    (w.phase.isEnding = true ∨ w.phase = .serving ∧ p.switch.mayRun = false)

theorem Retired.step (hi : p.Retired i) (h : Change p a q) : q.Retired i := by
  obtain ⟨w, hw, hphase⟩ := hi
  obtain ⟨w', hw', hevolves⟩ := h.evolves hw
  refine ⟨w', hw', ?_⟩
  by_cases ha : a = .advance i
  · have hfollows := hevolves.turn ha
    rcases hphase with hending | ⟨hserving, hswitch⟩
    · exact .inl (hfollows.isEnding hending)
    · rw [hfollows.of_serving hserving hswitch]
      exact .inl rfl
  · rw [hevolves.rest ha]
    exact hphase.imp_right fun ⟨hserving, hswitch⟩ => ⟨hserving, h.mayRun_eq_false hswitch⟩

theorem Retired.performAll (hi : p.Retired i) {actions : List Action}
    (h : p.performAll actions = some q) : q.Retired i :=
  performAll_induct Retired.step hi h

theorem Retired.not_executes (hi : p.Retired i) (hw : p.workers[i]? = some w) : ¬ w.Executes := by
  rintro ⟨hrunning, -⟩
  obtain ⟨v, hv, hphase⟩ := hi
  obtain rfl := Option.some.inj (hv.symm.trans hw)
  rw [hrunning] at hphase
  rcases hphase with hending | ⟨hserving, -⟩
  · cases hending
  · cases hserving

/-- The switch of the process is thrown, and so is that of every thread that might still find work. -/
structure Stopped (p : Process) : Prop where
  switch : p.switch.mayRun = false
  threads : ∀ {i : Nat} {w : Worker}, p.workers[i]? = some w →
    w.thread.switch.mayRun = false ∨ p.Retired i

theorem stopped_of_finishStop (hp : p.Coherent) (h : p.finishStop = some q) : q.Stopped := by
  obtain ⟨n, hpending, rfl⟩ := finishStop_eq_some h
  refine ⟨hp.pending (by omega), ?_⟩
  intro i w hw
  change (p.workers.map Worker.stop)[i]? = some w at hw
  rw [Array.getElem?_map] at hw
  obtain ⟨v, -, rfl⟩ := Option.map_eq_some_iff.mp hw
  exact .inl rfl

theorem Stopped.step (hp : p.Stopped) (h : Change p a q) : q.Stopped := by
  have hswitch := h.mayRun_eq_false hp.switch
  refine ⟨hswitch, ?_⟩
  intro i w' hw'
  rcases h.origin hw' with ⟨w, hw, hevolves⟩ | ⟨-, henters⟩
  · rcases hp.threads hw with hoff | hretired
    · rcases hevolves.switch with hsame | ⟨hoff', -⟩
      · exact .inl (hsame ▸ hoff)
      · exact .inl hoff'
    · exact .inr (hretired.step h)
  · -- a thread that enters looks at the switch of the process first
    exact .inr ⟨w', hw', .inr ⟨henters.phase, hswitch⟩⟩

theorem Stopped.not_executes (hp : p.Stopped) (hw : p.workers[i]? = some w) : ¬ w.Executes := by
  rcases hp.threads hw with hoff | hretired
  · rintro ⟨-, hrun⟩
    rw [hoff] at hrun
    cases hrun
  · exact hretired.not_executes hw

/-- A stopped process creates no thread but the main one. -/
theorem Stopped.threadCount (hp : p.Stopped) (hcoherent : p.Coherent) (h : Change p a q) :
    q.threadCount = p.threadCount ∨ a = .boot ∧ p.threadCount = 0 ∧ q = p.createMain := by
  cases h with
  | enters hboot => exact .inr ⟨rfl, hcoherent.size_eq_zero hboot, rfl⟩
  | creates child hw hphase hdown hswitch =>
    rw [hp.switch] at hswitch
    cases hswitch
  | prepares ha hworkers => exact .inl (congrArg Array.size hworkers)
  | moves machine phase hw hphase hmachine hworkers =>
    exact .inl ((congrArg Array.size hworkers).trans Array.size_modify)
  | joins hw hphase htarget hother hfree hworkers =>
    exact .inl ((congrArg Array.size hworkers).trans (Array.size_modify.trans Array.size_modify))
  | requests => exact .inl rfl
  | delivers => exact .inl Array.size_map
  | halts => exact .inl Array.size_modify
  | sweeps => exact .inl (Array.size_modify.trans Array.size_map)

/-- No stop is missed. Once a request to stop has been carried out, whenever it came, no thread carries out
another instruction: none is about to, and the place where a thread stands in the code and its open calls
never change again. No thread is added but the main one, when the process is started afterwards. -/
theorem stop_is_final (image : Image) (settings : Settings) (slot : FileSlot) (stdin : Bytes)
    (before after : List Action) (p q : Process)
    (hp : (image.process settings slot stdin).performAll (before ++ [.finishStop]) = some p)
    (hq : p.performAll after = some q) :
    (∀ (i : Nat) (w : Worker), q.workers[i]? = some w → ¬ w.Executes) ∧
      ∀ a r, q.perform a = some r →
        (r.threadCount = q.threadCount ∨ a = .boot ∧ q.threadCount = 0 ∧ r = q.createMain) ∧
          ∀ (i : Nat) (w : Worker), q.workers[i]? = some w → ∃ w', r.workers[i]? = some w' ∧
            w'.thread.machine.decoder = w.thread.machine.decoder ∧
            w'.thread.machine.stack = w.thread.machine.stack := by
  obtain ⟨s, hs, hfinish⟩ := performAll_append.mp hp
  obtain ⟨r, hr, hnil⟩ := performAll_cons.mp hfinish
  obtain rfl := Option.some.inj hnil
  have hcoherent : s.Coherent := (coherent_process image settings slot stdin).performAll hs
  have hstopped : q.Stopped := performAll_induct Stopped.step (stopped_of_finishStop hcoherent hr) hq
  refine ⟨fun i w hw => hstopped.not_executes hw, ?_⟩
  intro a r' hr'
  have hchange := change_perform hr'
  have hq' : q.Coherent := (hcoherent.step (change_perform hr)).performAll hq
  refine ⟨hstopped.threadCount hq' hchange, ?_⟩
  intro i w hw
  obtain ⟨w', hw', hevolves⟩ := hchange.evolves hw
  rcases hevolves.place with ⟨-, hexecutes⟩ | hplace
  · exact absurd hexecutes (hstopped.not_executes hw)
  · exact ⟨w', hw', hplace⟩

/-- A program that jumps to itself for ever. -/
def endlessLoop : Image :=
  Image.make [0x68, 0x00, 0x00, 0x00, 0x00] [] 0

/-- A stop that is complete before the main thread is created: the thread enters the table with its own switch
not thrown, and yet carries out nothing. -/
theorem stop_is_final_late_main :
    ∃ p q w, (endlessLoop.process (.captured []) .absent []).performAll
        ([.start, .boot, .requestStop] ++ [.finishStop]) = some p ∧
      p.threadCount = 0 ∧ p.performAll [.boot] = some q ∧ q.workers[0]? = some w ∧
      w.thread.switch.mayRun = true ∧ ¬ w.Executes := by
  have hrun : ((endlessLoop.process (.captured []) .absent []).performAll
      ([.start, .boot, .requestStop] ++ [.finishStop])).map
        (fun p => (p.threadCount, (p.performAll [.boot]).map fun q =>
          q.workers[0]?.map fun w => w.thread.switch.mayRun)) = some (0, some (some true)) := by
    decide +kernel
  obtain ⟨p, hp, hview⟩ := Option.map_eq_some_iff.mp hrun
  obtain ⟨hcount, hboot⟩ := Prod.mk.inj hview
  obtain ⟨q, hq, hmain⟩ := Option.map_eq_some_iff.mp hboot
  obtain ⟨w, hw, hswitch⟩ := Option.map_eq_some_iff.mp hmain
  have hfinal := stop_is_final _ _ _ _ _ [.boot] p q hp hq
  exact ⟨p, q, w, hp, hcount, hq, hw, hswitch, hfinal.1 0 w hw⟩

end PrefixVM.Process
