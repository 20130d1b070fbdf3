import Mathlib.Dynamics.PeriodicPts.Lemmas
import Mathlib.Logic.Relation
import PrefixVM.Proofs.Schedules

/-!
The end of a process. A thread that can no longer be joined is in the custody of another thread, which waits
for it or will wait for it. When the main thread has ended, every thread that has not finished is therefore
awaited by another such thread. There are only finitely many, so they wait for each other in cycles, and
nothing of the process changes any more.
-/
namespace PrefixVM.Process

variable {p q : Process} {a : Action} {i j : Nat} {w : Worker}

/-- The first thread has joined the second one, and waits for it to finish. -/
def Awaits (p : Process) (i j : Nat) : Prop :=
  p.phase? i = some (.joining j)

theorem isFinished_eq_true_iff : p.isFinished i = true ↔ ∃ result, p.phase? i = some (.finished result) := by
  rw [isFinished, phase?]
  cases p.workers[i]? with
  | none => simp
  | some w =>
    rw [Option.any_some, Option.map_some, Worker.isFinished]
    cases w.phase <;> simp

theorem Awaits.isFinished_eq_false (h : p.Awaits i j) : p.isFinished i = false := by
  rw [Bool.eq_false_iff]
  intro hend
  obtain ⟨result, hresult⟩ := isFinished_eq_true_iff.mp hend
  rw [h] at hresult
  cases hresult

theorem isFinished_step (h : Change p a q) (hi : p.isFinished i = true) : q.isFinished i = true := by
  obtain ⟨result, hphase⟩ := isFinished_eq_true_iff.mp hi
  rcases h.phase_step hphase with hsame | ⟨-, w, next, hw, hfinished, -, hfollows⟩
  · exact isFinished_eq_true_iff.mpr ⟨result, hsame⟩
  · exact absurd hfinished (hfollows.not_finished result)

/-- Whoever has claimed a thread lets go of it only when it has finished. -/
theorem Claimed.step (hi : p.Claimed i) (h : Change p a q) : q.Claimed i ∨ p.isFinished i = true := by
  rcases hi with ⟨k, hk⟩ | ⟨k, threads, result, hk, hmem⟩
  · rcases h.phase_step hk with hsame | ⟨-, w, next, hw, hjoining, -, hfollows⟩
    · exact .inl (.inl ⟨k, hsame⟩)
    · exact .inr (hfollows.of_joining hjoining)
  · rcases h.phase_step hk with hsame | ⟨-, w, next, hw, hcollecting, hnext, hfollows⟩
    · exact .inl (.inr ⟨k, threads, result, hsame, hmem⟩)
    · -- the first thread of the list has finished, the others stay on it
      rcases hfollows.of_collecting hcollecting with rfl | ⟨first, rest, rfl, hend, rfl⟩
      · cases hmem
      · rcases List.mem_cons.mp hmem with rfl | hrest
        · exact .inr hend
        · exact .inl (.inr ⟨k, rest, result, hnext, hrest⟩)

/-- Once all threads are taken over this stays so, because none is added. -/
theorem Swept.step (hs : p.Swept) (hp : p.Coherent) (hmain : 0 < p.workers.size) (h : Change p a q) :
    q.Swept := by
  have hentry {i : Nat} {w' : Worker} (hw' : q.workers[i]? = some w') :
      w'.joinable = false ∧ w'.thread.switch.mayRun = false := by
    rcases h.origin hw' with ⟨w, hw, hevolves⟩ | ⟨-, henters⟩
    · constructor
      · rcases hevolves.joinable with hsame | ⟨hfalse, -⟩
        · rw [hsame, hs.joinable hw]
        · exact hfalse
      · rcases hevolves.switch with hsame | ⟨hoff, -⟩
        · rw [hsame, hs.switch hw]
        · exact hoff
    · -- the main thread is there already, and the others are refused
      rcases henters.cause with ⟨-, hboot, -⟩ | ⟨hdown, -⟩
      · have hsize := hp.size_eq_zero hboot
        omega
      · rw [hs.shuttingDown] at hdown
        cases hdown
  exact ⟨h.shuttingDown_eq_true hs.shuttingDown, fun hw => (hentry hw).1, fun hw => (hentry hw).2⟩

/-- Every thread but the main one can be joined, or has finished, or is claimed by a thread that waits for it;
and only the main thread takes the process down, which it does by taking over all that can be joined. -/
structure Custody (p : Process) : Prop extends Coherent p where
  target : ∀ {i j : Nat}, p.Awaits i j → j < p.threadCount ∧ j ≠ i
  closing : ∀ {i : Nat} {phase : Phase}, p.phase? i = some phase → phase.isClosing = true →
    i = Thread.mainIndex
  swept : ∀ {phase : Phase}, p.phase? Thread.mainIndex = some phase → phase.isSwept = true → p.Swept
  held : ∀ {i : Nat} {w : Worker}, p.workers[i]? = some w → i ≠ Thread.mainIndex →
    w.joinable = true ∨ p.isFinished i = true ∨ p.Claimed i

theorem custody_process (image : Image) (settings : Settings) (slot : FileSlot) (stdin : Bytes) :
    (image.process settings slot stdin).Custody where
  toCoherent := coherent_process image settings slot stdin
  target h := by cases h
  closing h := by cases h
  swept h := by cases h
  held h := by cases h

namespace Custody

theorem target_step (hp : p.Custody) (h : Change p a q) (hij : q.Awaits i j) :
    j < q.threadCount ∧ j ≠ i := by
  have hsize : p.workers.size ≤ q.workers.size := by
    rcases h.size with hsame | ⟨hmore, -⟩ <;> omega
  have hbefore : j < p.workers.size ∧ j ≠ i := by
    rcases h.phase_origin hij with hbefore | ⟨w, hw, hfollows⟩ | hnew
    · exact hp.target hbefore
    · rw [← hp.index hw]
      exact hfollows.into_joining
    · cases hnew
  exact ⟨Nat.lt_of_lt_of_le hbefore.1 hsize, hbefore.2⟩

theorem closing_step (hp : p.Custody) (h : Change p a q) {phase : Phase} (hi : q.phase? i = some phase)
    (hclosing : phase.isClosing = true) : i = Thread.mainIndex := by
  rcases h.phase_origin hi with hbefore | ⟨w, hw, hfollows⟩ | rfl
  · exact hp.closing hbefore hclosing
  · rcases hfollows.into_closing hclosing with hclosing | hmain
    · exact hp.closing (phase?_of_getElem? hw) hclosing
    · rw [← hmain, hp.index hw]
  · cases hclosing

theorem swept_step (hp : p.Custody) (h : Change p a q) {phase : Phase}
    (hmain : q.phase? Thread.mainIndex = some phase) (hswept : phase.isSwept = true) : q.Swept := by
  have hkept {phase : Phase} (hmain : p.phase? Thread.mainIndex = some phase)
      (hswept : phase.isSwept = true) : q.Swept := by
    obtain ⟨w, hw, -⟩ := phase?_eq_some_iff.mp hmain
    have hsize : 0 < p.workers.size := (Array.getElem?_eq_some_iff.mp hw).1
    exact (hp.swept hmain hswept).step hp.toCoherent hsize h
  rcases h.phase_origin hmain with hbefore | ⟨w, hw, hfollows⟩ | rfl
  · exact hkept hbefore hswept
  · rcases hfollows.into_swept hswept (hp.index hw) with hswept | hq
    · exact hkept (phase?_of_getElem? hw) hswept
    · exact hq
  · cases hswept

theorem held_step (hp : p.Custody) (h : Change p a q) {w' : Worker} (hw' : q.workers[i]? = some w')
    (hi : i ≠ Thread.mainIndex) : w'.joinable = true ∨ q.isFinished i = true ∨ q.Claimed i := by
  rcases h.origin hw' with ⟨w, hw, hevolves⟩ | ⟨rfl, henters⟩
  · rcases hp.held hw hi with hfree | hend | hclaimed
    · -- it can be joined no longer once a joining or the main thread has claimed it
      rcases hevolves.joinable with hsame | ⟨-, hclaimed⟩
      · rw [hsame]
        exact .inl hfree
      · exact .inr (.inr hclaimed)
    · exact .inr (.inl (isFinished_step h hend))
    · rcases hclaimed.step h with hclaimed | hend
      · exact .inr (.inr hclaimed)
      · exact .inr (.inl (isFinished_step h hend))
  · rcases henters.cause with ⟨-, hboot, -⟩ | ⟨-, -, -, hfree, -⟩
    · exact absurd (hp.size_eq_zero hboot) hi
    · exact .inl hfree

theorem step (hp : p.Custody) (h : Change p a q) : q.Custody where
  toCoherent := hp.toCoherent.step h
  target hij := hp.target_step h hij
  closing hi hclosing := hp.closing_step h hi hclosing
  swept hmain hswept := hp.swept_step h hmain hswept
  held hw' hi := hp.held_step h hw' hi

theorem of_performAll {image : Image} {settings : Settings} {slot : FileSlot} {stdin : Bytes}
    {actions : List Action} (h : (image.process settings slot stdin).performAll actions = some p) :
    p.Custody :=
  performAll_induct step (custody_process image settings slot stdin) h

/-- After the end of the main thread, a thread that has not finished is awaited by another one. -/
theorem exists_awaits (hp : p.Custody) {result : Option Fault} (hend : p.result? = some result)
    (hi : i < p.threadCount) (hopen : p.isFinished i = false) : ∃ k, p.Awaits k i := by
  have hmain := phase?_mainIndex hend
  have hne : i ≠ Thread.mainIndex := by
    rintro rfl
    rw [isFinished_eq_true_iff.mpr ⟨result, hmain⟩] at hopen
    cases hopen
  have hw : p.workers[i]? = some p.workers[i] := Array.getElem?_eq_getElem hi
  have hswept : p.Swept := hp.swept hmain rfl
  rcases hp.held hw hne with hfree | hend | ⟨k, hk⟩ | ⟨k, threads, r, hk, -⟩
  · rw [hswept.joinable hw] at hfree
    cases hfree
  · rw [hopen] at hend
    cases hend
  · exact ⟨k, hk⟩
  · -- only the main thread collects others, and it has ended
    obtain rfl := hp.closing hk rfl
    rw [hmain] at hk
    cases hk

end Custody

/-- The threads of the table that have not finished. -/
def Open (p : Process) : Type :=
  { i : Fin p.threadCount // p.isFinished i = false }

instance (p : Process) : Finite p.Open :=
  inferInstanceAs (Finite { i : Fin p.threadCount // p.isFinished i = false })

theorem transGen_iterate {f : p.Open → p.Open} (hf : ∀ k, p.Awaits (f k).1 k.1) (n : Nat) (k : p.Open) :
    Relation.TransGen p.Awaits (f^[n + 1] k).1 k.1 := by
  induction n with
  | zero => exact .single (hf k)
  | succ n ih =>
    rw [Function.iterate_succ_apply']
    exact .head (hf _) ih

/-- If each open thread is awaited by another one, then all of them wait in cycles. A thread waits for one
other at a time, so going from a thread to one that awaits it never brings two threads together. -/
theorem transGen_awaits_self (h : ∀ i < p.threadCount, p.isFinished i = false → ∃ k, p.Awaits k i)
    (hi : i < p.threadCount) (hopen : p.isFinished i = false) : Relation.TransGen p.Awaits i i := by
  have hjoiner (k : p.Open) : ∃ j : p.Open, p.Awaits j.1 k.1 := by
    obtain ⟨j, hj⟩ := h k.1 k.1.isLt k.2
    obtain ⟨w, hw, -⟩ := phase?_eq_some_iff.mp hj
    exact ⟨⟨⟨j, (Array.getElem?_eq_some_iff.mp hw).1⟩, hj.isFinished_eq_false⟩, hj⟩
  -- `f` maps an open thread to one that awaits it
  choose f hf using hjoiner
  have hinjective : Function.Injective f := by
    intro k l hkl
    have hk := hf k
    rw [hkl] at hk
    have htarget : k.1.1 = l.1.1 := Phase.joining.inj (Option.some.inj (hk.symm.trans (hf l)))
    exact Subtype.ext (Fin.ext htarget)
  obtain ⟨n, hn, hperiod⟩ := Function.mem_periodicPts.mp (hinjective.mem_periodicPts ⟨⟨i, hi⟩, hopen⟩)
  obtain ⟨m, rfl⟩ := Nat.exists_eq_add_one.mpr hn
  have hpath := transGen_iterate hf m ⟨⟨i, hi⟩, hopen⟩
  rw [hperiod.eq] at hpath
  exact hpath

/-- A thread on a cycle waits for a thread on the same cycle. -/
theorem exists_awaits_of_transGen (h : Relation.TransGen p.Awaits i i) :
    ∃ j, p.Awaits i j ∧ p.isFinished j = false := by
  obtain ⟨j, hij, hji⟩ := Relation.TransGen.head'_iff.mp h
  refine ⟨j, hij, ?_⟩
  rcases Relation.ReflTransGen.cases_head hji with rfl | ⟨k, hjk, -⟩
  · exact hij.isFinished_eq_false
  · exact hjk.isFinished_eq_false

theorem Custody.transGen_awaits (hp : p.Custody) {result : Option Fault} (hend : p.result? = some result)
    (hi : i < p.threadCount) (hopen : p.isFinished i = false) : Relation.TransGen p.Awaits i i := by
  apply transGen_awaits_self _ hi hopen
  intro k hk hopen
  exact hp.exists_awaits hend hk hopen

/-- Two states of a process that agree in its threads and in all that these share. -/
structure Unchanged (p q : Process) : Prop where
  memory : q.memory = p.memory
  console : q.console = p.console
  stdin : q.stdin = p.stdin
  stdout : q.stdout = p.stdout
  file : q.file = p.file
  locks : q.locks = p.locks
  workers : q.workers = p.workers
  shuttingDown : q.shuttingDown = p.shuttingDown
  boot : q.boot = p.boot

theorem Unchanged.refl (p : Process) : p.Unchanged p :=
  ⟨rfl, rfl, rfl, rfl, rfl, rfl, rfl, rfl, rfl⟩

theorem Unchanged.trans {r : Process} (h : p.Unchanged q) (h' : q.Unchanged r) : p.Unchanged r :=
  ⟨h'.memory.trans h.memory, h'.console.trans h.console, h'.stdin.trans h.stdin,
    h'.stdout.trans h.stdout, h'.file.trans h.file, h'.locks.trans h.locks, h'.workers.trans h.workers,
    h'.shuttingDown.trans h.shuttingDown, h'.boot.trans h.boot⟩

/-- The process is started, no thread can take a step, and all have been told to stop. -/
structure Still (p : Process) : Prop where
  boot : p.boot = .running
  enabled : ∀ i, p.enabled i = false
  switch : ∀ {i : Nat} {w : Worker}, p.workers[i]? = some w → w.thread.switch.mayRun = false

theorem Still.of_unchanged (hp : p.Still) (h : p.Unchanged q) : q.Still where
  boot := h.boot.trans hp.boot
  enabled i := by
    have hsame : q.enabled i = p.enabled i := by
      unfold Process.enabled isFinished
      rw [h.workers]
    rw [hsame, hp.enabled i]
  switch hw := hp.switch (h.workers ▸ hw)

theorem Still.map_stop (hp : p.Still) : p.workers.map Worker.stop = p.workers := by
  apply Array.ext_getElem?
  intro i
  rw [Array.getElem?_map]
  cases hw : p.workers[i]? with
  | none => rfl
  | some w =>
    have hthrown : w.thread.switch.stop.2 = w.thread.switch := by
      have hoff := hp.switch hw
      rw [Switch.mayRun, Bool.not_eq_false'] at hoff
      rw [Switch.stop, ← hoff]
    rw [Option.map_some, Worker.stop, hthrown]

/-- A still process can only be told to stop once more. -/
theorem Still.perform (hp : p.Still) (h : p.perform a = some q) : p.Unchanged q := by
  cases a with
  | start =>
    simp only [Process.perform, tryStart, hp.boot] at h
    obtain rfl := Option.some.inj h
    exact .refl p
  | boot =>
    simp only [Process.perform, bootStep, hp.boot] at h
    cases h
  | advance i =>
    simp only [Process.perform, advance, hp.enabled i] at h
    cases h
  | requestStop =>
    obtain rfl := Option.some.inj h
    exact ⟨rfl, rfl, rfl, rfl, rfl, rfl, rfl, rfl, rfl⟩
  | finishStop =>
    simp only [Process.perform, finishStop] at h
    split at h
    · cases h
    · obtain rfl := Option.some.inj h
      exact ⟨rfl, rfl, rfl, rfl, rfl, rfl, hp.map_stop, rfl, rfl⟩

theorem Still.performAll (hp : p.Still) {actions : List Action} (h : p.performAll actions = some q) :
    p.Unchanged q := by
  induction actions generalizing p with
  | nil =>
    obtain rfl := Option.some.inj h
    exact .refl p
  | cons a rest ih =>
    obtain ⟨r, hr, hrest⟩ := performAll_cons.mp h
    have hstep := hp.perform hr
    exact hstep.trans (ih (hp.of_unchanged hstep) hrest)

theorem Custody.still (hp : p.Custody) {result : Option Fault} (hend : p.result? = some result) :
    p.Still := by
  have hmain := phase?_mainIndex hend
  refine ⟨?_, ?_, (hp.swept hmain rfl).switch⟩
  · rcases hp.boot with hrunning | hsize
    · exact hrunning
    · obtain ⟨w, hw, -⟩ := phase?_eq_some_iff.mp hmain
      have hlt := (Array.getElem?_eq_some_iff.mp hw).1
      omega
  · intro i
    cases hw : p.workers[i]? with
    | none => simp only [enabled, hw]
    | some w =>
      have hi : i < p.threadCount := (Array.getElem?_eq_some_iff.mp hw).1
      cases hopen : p.isFinished i with
      | true =>
        obtain ⟨r, hr⟩ := isFinished_eq_true_iff.mp hopen
        rw [phase?_of_getElem? hw] at hr
        exact enabled_finished hw (Option.some.inj hr)
      | false =>
        obtain ⟨j, hij, hj⟩ := exists_awaits_of_transGen (hp.transGen_awaits hend hi hopen)
        rw [Awaits, phase?_of_getElem? hw] at hij
        rw [enabled_joining hw (Option.some.inj hij), hj]

/-- Nothing happens after the end of the main thread. Each thread that has not finished by then has joined
another one that has not finished either, and these threads wait for each other in cycles. So no thread takes
a step any more, and whatever is done with the process leaves its memory, console, file, locks and threads as
they are. -/
theorem terminated_is_still (image : Image) (settings : Settings) (slot : FileSlot) (stdin : Bytes)
    (actions : List Action) (p : Process) (result : Option Fault)
    (hp : (image.process settings slot stdin).performAll actions = some p)
    (hend : p.result? = some result) :
    (∀ i < p.threadCount, p.isFinished i = false →
      (∃ j < p.threadCount, j ≠ i ∧ p.Awaits i j ∧ p.isFinished j = false) ∧
        Relation.TransGen p.Awaits i i) ∧
      ∀ more q, p.performAll more = some q → p.Unchanged q := by
  have hcustody : p.Custody := .of_performAll hp
  constructor
  · intro i hi hopen
    have hcycle := hcustody.transGen_awaits hend hi hopen
    obtain ⟨j, hij, hj⟩ := exists_awaits_of_transGen hcycle
    obtain ⟨hlt, hne⟩ := hcustody.target hij
    exact ⟨⟨j, hlt, hne, hij, hj⟩, hcycle⟩
  · intro more q hq
    exact (hcustody.still hend).performAll hq

/-- A program whose main thread creates three threads and ends. The first of them joins the third, the third
joins the second and the second joins the first. -/
def joinRing : Image :=
  Image.make
    [0xa6, 0x08, 0x00, 0x00, 0x02, 0x28, 0xb6, 0x00, 0x00, 0x00, 0x4a, 0x4b, 0x80, 0x00, 0x00, 0x32, 0xc7,
      0x00, 0x00, 0x00, 0x00, 0x00, 0x00, 0x00, 0x01, 0x95, 0x65, 0xaa, 0x8b, 0x54, 0x96] [] 0

/-- The main thread creates the others, all of these join, and the main thread ends. -/
def joinRingActions : List Action :=
  [.start, .boot, .boot] ++ List.replicate 12 (.advance 0) ++ List.replicate 4 (.advance 1) ++
    List.replicate 3 (.advance 2) ++ List.replicate 3 (.advance 3) ++ List.replicate 8 (.advance 0)

theorem joinRing_run :
    ∃ p, (joinRing.process (.captured []) .absent []).performAll joinRingActions = some p ∧
      p.threadCount = 4 ∧ p.result? = some none ∧ p.Awaits 1 3 ∧ p.Awaits 3 2 ∧ p.Awaits 2 1 := by
  have hrun : ((joinRing.process (.captured []) .absent []).performAll joinRingActions).map
      (fun p => (p.threadCount, p.result?, p.phase? 1, p.phase? 3, p.phase? 2)) =
        some (4, some none, some (.joining 3), some (.joining 2), some (.joining 1)) := by
    decide +kernel
  obtain ⟨p, hp, hview⟩ := Option.map_eq_some_iff.mp hrun
  simp only [Prod.mk.injEq] at hview
  exact ⟨p, hp, hview⟩

theorem terminated_is_still_joinRing :
    ∃ p, (joinRing.process (.captured []) .absent []).performAll joinRingActions = some p ∧
      p.result? = some none ∧ p.isFinished 1 = false ∧ Relation.TransGen p.Awaits 1 1 ∧
      ∀ more q, p.performAll more = some q → p.Unchanged q := by
  obtain ⟨p, hp, hcount, hend, hone, -⟩ := joinRing_run
  obtain ⟨hcycles, hstill⟩ := terminated_is_still _ _ _ _ _ p none hp hend
  have hopen := hone.isFinished_eq_false
  exact ⟨p, hp, hend, hopen, (hcycles 1 (by omega) hopen).2, hstill⟩

/-- The call that started the process has returned, be it because the data file could not be opened. -/
def HasReturned (p : Process) : Prop :=
  (∃ result, p.result? = some result) ∨ ∃ fault, p.boot = .failed fault

/-- When the call that started the process has returned, all its threads have finished but those that wait
for each other in a cycle of joins. -/
theorem finished_iff_not_in_join_cycle (image : Image) (settings : Settings) (slot : FileSlot)
    (stdin : Bytes) (actions : List Action) (p : Process)
    (hp : (image.process settings slot stdin).performAll actions = some p) (hreturned : p.HasReturned) :
    ∀ i < p.threadCount, p.isFinished i = true ↔ ¬ Relation.TransGen p.Awaits i i := by
  have hcustody : p.Custody := .of_performAll hp
  intro i hi
  constructor
  · intro hfinished hcycle
    obtain ⟨j, hij, -⟩ := exists_awaits_of_transGen hcycle
    rw [hij.isFinished_eq_false] at hfinished
    cases hfinished
  · intro hacyclic
    rcases hreturned with ⟨result, hend⟩ | ⟨fault, hfailed⟩
    · by_contra hopen
      exact hacyclic (hcustody.transGen_awaits hend hi (Bool.eq_false_iff.mpr hopen))
    · -- a process that could not be started has no threads
      have hsize : p.workers.size = 0 := by
        apply hcustody.boot.resolve_left
        rw [hfailed]
        exact Boot.noConfusion
      exact absurd hi (by rw [threadCount]; omega)

theorem finished_iff_not_in_join_cycle_joinRing :
    ∃ p, (joinRing.process (.captured []) .absent []).performAll joinRingActions = some p ∧
      p.HasReturned ∧ Relation.TransGen p.Awaits 1 1 ∧ ¬ Relation.TransGen p.Awaits 0 0 := by
  obtain ⟨p, hp, hcount, hend, hone, hthree, htwo⟩ := joinRing_run
  have hreturned : p.HasReturned := .inl ⟨none, hend⟩
  have hmain : p.isFinished 0 = true := isFinished_eq_true_iff.mpr ⟨none, phase?_mainIndex hend⟩
  have hiff := finished_iff_not_in_join_cycle _ _ _ _ _ p hp hreturned 0 (by omega)
  exact ⟨p, hp, hreturned, .tail (.tail (.single hone) hthree) htwo, hiff.mp hmain⟩

/-- Three threads that have joined each other are still there when the call that started the process has
returned. -/
theorem unfinished_after_return :
    ∃ p, (joinRing.process (.captured []) .absent []).performAll joinRingActions = some p ∧
      p.HasReturned ∧ ∃ i < p.threadCount, p.isFinished i = false := by
  obtain ⟨p, hp, hcount, hend, hone, -⟩ := joinRing_run
  exact ⟨p, hp, .inl ⟨none, hend⟩, 1, by omega, hone.isFinished_eq_false⟩

end PrefixVM.Process
