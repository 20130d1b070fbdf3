import Mathlib.Data.List.Infix
import PrefixVM.Proofs.Cancellation
import PrefixVM.Proofs.LockOwners

/-!
Passing a lock. The service that takes a lock does not tell a thread whether it got the lock; a thread that
did not get it finds out in other ways that it has to end. So whoever goes on after the service is the owner
of the lock.
-/
namespace PrefixVM

namespace LockTable

variable {t : LockTable} {lock : Int64} {thread : Nat} {mayRun : Bool} {stage : LockStage}

/-- A lock is taken from nobody. A thread at the stage of waiting has to know that the lock exists. -/
theorem owner?_of_acquired (hwait : stage = .wait → lock ∈ t.locks) {created : Bool}
    (h : (t.lockStep lock thread mayRun stage).1 = .acquired created) :
    t.owner? lock = none ∧ (t.lockStep lock thread mayRun stage).2.owner? lock = some thread := by
  cases stage with
  | look =>
    cases hentry : t.entry? lock with
    | none =>
      simp only [lockStep, hentry] at h
      cases h
    | some owner =>
      simp only [lockStep, hentry] at h
      cases h
  | create =>
    cases hentry : t.entry? lock with
    | none =>
      simp only [lockStep, hentry]
      refine ⟨by rw [owner?, hentry]; rfl, ?_⟩
      rw [owner?_insert t lock lock _ hentry, if_pos rfl]
    | some owner =>
      simp only [lockStep, hentry] at h
      cases h
  | wait =>
    cases howner : t.owner? lock with
    | none =>
      simp only [lockStep, howner]
      have hsome : (t.entry? lock).isSome = true := (isSome_entry?_iff t lock).mpr (hwait rfl)
      exact ⟨trivial, by rw [owner?_setOwner t lock lock _ hsome, if_pos rfl]⟩
    | some owner =>
      simp only [lockStep, howner] at h
      split at h
      · cases h
      · split at h <;> cases h

theorem mayRun_of_abandoned (h : (t.lockStep lock thread mayRun stage).1 = .abandoned) :
    mayRun = false := by
  cases stage with
  | look | create =>
    simp only [lockStep] at h
    split at h <;> cases h
  | wait =>
    simp only [lockStep] at h
    split at h
    · cases h
    · split at h
      · cases h
      · split at h
        · cases h
        next hstop => exact Bool.eq_false_iff.mpr hstop

/-- A thread that goes on waiting has found the lock in the table. -/
theorem mem_locks_of_pending (h : (t.lockStep lock thread mayRun stage).1 = .pending .wait) :
    lock ∈ t.locks := by
  cases stage with
  | look | create =>
    simp only [lockStep] at h
    split at h
    next owner hentry => exact mem_locks_of_entry? hentry
    next => cases h
  | wait =>
    simp only [lockStep] at h
    split at h
    · cases h
    next owner howner => exact (isSome_entry?_iff t lock).mp (isSome_entry?_of_owner? howner)

theorem locks_prefix_lockStep (t : LockTable) (lock : Int64) (thread : Nat) (mayRun : Bool)
    (stage : LockStage) : t.locks <+: (t.lockStep lock thread mayRun stage).2.locks := by
  cases stage with
  | look =>
    simp only [lockStep]
    split <;> exact List.prefix_rfl
  | create =>
    simp only [lockStep]
    split
    · exact List.prefix_rfl
    · rw [locks_insert]
      exact List.prefix_append _ _
  | wait =>
    simp only [lockStep]
    split
    · rw [locks_setOwner]
    · split
      · exact List.prefix_rfl
      · split <;> exact List.prefix_rfl

theorem locks_prefix_unlockStep (t : LockTable) (lock : Int64) (stage : UnlockStage) :
    t.locks <+: (t.unlockStep lock stage).2.locks := by
  cases stage with
  | look =>
    simp only [unlockStep]
    split <;> exact List.prefix_rfl
  | clear =>
    simp only [unlockStep]
    split
    · rw [locks_setOwner]
    · exact List.prefix_rfl

end LockTable

theorem Phase.Follows.into_waiting {p q : Process} {w : Worker} {lock : Int64}
    (h : Phase.Follows p q w (.locking lock .wait)) : lock ∈ p.locks.locks := by
  cases h with
  | works _ hnext => cases hnext
  | @takes other stage _ _ _ hnext =>
    cases houtcome : (p.locks.lockStep other w.thread.index w.thread.switch.mayRun stage).1 with
    | acquired | abandoned | reentrant =>
      rw [houtcome] at hnext
      cases hnext
    | pending next =>
      rw [houtcome] at hnext
      obtain ⟨rfl, rfl⟩ := Phase.locking.inj hnext
      exact LockTable.mem_locks_of_pending houtcome

namespace Process

variable {p q : Process} {a : Action} {i : Nat} {w : Worker} {lock : Int64} {stage : LockStage}

theorem Keeps.locks_prefix (h : Keeps p w q) : p.locks.locks <+: q.locks.locks := by
  rcases h.locks with hsame | ⟨lock, stage, -, hlocks⟩ | ⟨lock, stage, -, hlocks⟩
  · rw [hsame]
  · rw [hlocks]
    exact LockTable.locks_prefix_lockStep _ _ _ _ _
  · rw [hlocks]
    exact LockTable.locks_prefix_unlockStep _ _ _

/-- Locks are never removed. -/
theorem Change.locks_prefix (h : Change p a q) : p.locks.locks <+: q.locks.locks := by
  cases h with
  | prepares ha hworkers hswitch hdown hpending hboot hlocks => rw [hlocks]
  | moves machine phase hw hphase hmachine hworkers hkeeps => exact hkeeps.locks_prefix
  | creates child hw hphase hdown hswitch hindex hfresh hworkers hkeeps => exact hkeeps.locks_prefix
  | joins hw hphase htarget hother hfree hworkers hkeeps => exact hkeeps.locks_prefix
  | enters | requests | delivers | halts | sweeps => exact List.prefix_rfl

/-- A thread waits only for locks that exist. -/
def WaitsForExisting (p : Process) : Prop :=
  ∀ i lock, p.phase? i = some (.locking lock .wait) → lock ∈ p.locks.locks

theorem WaitsForExisting.step (hp : p.WaitsForExisting) (h : Change p a q) : q.WaitsForExisting := by
  intro i lock hphase
  apply h.locks_prefix.subset
  rcases h.phase_origin hphase with hbefore | ⟨w, hw, hfollows⟩ | hnew
  · exact hp i lock hbefore
  · exact hfollows.into_waiting
  · cases hnew

/-- The next step of the thread carries out an instruction or provides a service to it. -/
def Proceeds (p : Process) (i : Nat) : Prop :=
  ∃ w, p.workers[i]? = some w ∧ (w.Executes ∨ ∃ op, w.phase = .requesting op)

theorem Retired.not_proceeds (hi : p.Retired i) : ¬ p.Proceeds i := by
  rintro ⟨w, hw, hexecutes | ⟨op, hrequest⟩⟩
  · exact hi.not_executes hw hexecutes
  · obtain ⟨v, hv, hphase⟩ := hi
    obtain rfl := Option.some.inj (hv.symm.trans hw)
    rw [hrequest] at hphase
    rcases hphase with hending | ⟨hserving, -⟩
    · cases hending
    · cases hserving

/-- The thread comes to own a lock that nobody owned, and goes on. -/
structure Acquires (p : Process) (i : Nat) (lock : Int64) (q : Process) : Prop where
  free : p.locks.owner? lock = none
  owner : q.locks.owner? lock = some i
  phase : q.phase? i = some .serving

/-- A thread that did not get the lock is retired: a waiting thread gives up only when its switch is thrown,
and then the switch of the process is thrown as well. -/
theorem retired_of_refused (hp : p.Coherent) (hw : p.workers[i]? = some w)
    (hphase : w.phase = .locking lock stage) (h : Change p (.advance i) q)
    (hrefused : (p.locks.lockStep lock i w.thread.switch.mayRun stage).1 = .abandoned ∨
      (p.locks.lockStep lock i w.thread.switch.mayRun stage).1 = .reentrant) : q.Retired i := by
  obtain ⟨w', hw', hevolves⟩ := h.evolves hw
  obtain ⟨-, hnext⟩ := (hevolves.turn rfl).of_locking hphase
  rw [hp.index hw] at hnext
  refine ⟨w', hw', ?_⟩
  rcases hrefused with habandoned | hreentrant
  · have hoff : w.thread.switch.mayRun = false := LockTable.mayRun_of_abandoned habandoned
    rw [habandoned] at hnext
    exact .inr ⟨hnext, h.mayRun_eq_false (hp.switch hw hoff)⟩
  · rw [hreentrant] at hnext
    rw [hnext]
    exact .inl rfl

/-- What can become of a thread that tries to take a lock. -/
theorem locking_step (hp : p.Coherent) (hwaits : p.WaitsForExisting)
    (hphase : p.phase? i = some (.locking lock stage)) (h : Change p a q) :
    (∃ stage', q.phase? i = some (.locking lock stage')) ∨ a = .advance i ∧ p.Acquires i lock q ∨
      q.Retired i := by
  rcases h.phase_step hphase with hsame | ⟨rfl, w, next, hw, hlocking, hnext, hfollows⟩
  · exact .inl ⟨stage, hsame⟩
  · obtain ⟨hlocks, rfl⟩ := hfollows.of_locking hlocking
    rw [hp.index hw] at hlocks hnext
    cases houtcome : (p.locks.lockStep lock i w.thread.switch.mayRun stage).1 with
    | acquired created =>
      -- a waiting thread sets the owner of an entry, so the entry has to be there
      have hwait : stage = .wait → lock ∈ p.locks.locks := by
        rintro rfl
        exact hwaits i lock hphase
      obtain ⟨hfree, howner⟩ := LockTable.owner?_of_acquired hwait houtcome
      rw [houtcome] at hnext
      exact .inr (.inl ⟨rfl, hfree, hlocks ▸ howner, hnext⟩)
    | abandoned => exact .inr (.inr (retired_of_refused hp hw hlocking h (.inl houtcome)))
    | reentrant => exact .inr (.inr (retired_of_refused hp hw hlocking h (.inr houtcome)))
    | pending stage' =>
      rw [houtcome] at hnext
      exact .inl ⟨stage', hnext⟩

/-- Among the actions `more` from `p` on, a step of the thread acquires the lock, and until then the thread is
busy with taking it. -/
def AcquiresWithin (p : Process) (i : Nat) (lock : Int64) (more : List Action) (q : Process) : Prop :=
  ∃ during after s s', more = during ++ .advance i :: after ∧ p.performAll during = some s ∧
    s.perform (.advance i) = some s' ∧ s'.performAll after = some q ∧ s.Acquires i lock s' ∧
    ∀ mid r, mid <+: during → p.performAll mid = some r → ∃ stage, r.phase? i = some (.locking lock stage)

theorem AcquiresWithin.cons (hphase : p.phase? i = some (.locking lock stage)) {r : Process}
    (hr : p.perform a = some r) {rest : List Action} (h : r.AcquiresWithin i lock rest q) :
    p.AcquiresWithin i lock (a :: rest) q := by
  obtain ⟨during, after, s, s', rfl, hs, hs', hq, hacquires, hbusy⟩ := h
  refine ⟨a :: during, after, s, s', rfl, performAll_cons.mpr ⟨r, hr, hs⟩, hs', hq, hacquires, ?_⟩
  intro mid u hmid hu
  cases mid with
  | nil =>
    obtain rfl := Option.some.inj hu
    exact ⟨stage, hphase⟩
  | cons b mid =>
    obtain ⟨rfl, hprefix⟩ := List.cons_prefix_cons.mp hmid
    obtain ⟨r', hr', hu'⟩ := performAll_cons.mp hu
    obtain rfl := Option.some.inj (hr'.symm.trans hr)
    exact hbusy mid u hprefix hu'

theorem acquiresWithin_of_proceeds (hp : p.Coherent) (hwaits : p.WaitsForExisting)
    (hphase : p.phase? i = some (.locking lock stage)) {more : List Action}
    (h : p.performAll more = some q) (hq : q.Proceeds i) : p.AcquiresWithin i lock more q := by
  -- by induction on the schedule, up to the step that ends the attempt
  induction more generalizing p stage with
  | nil =>
    obtain rfl := Option.some.inj h
    obtain ⟨w, hw, hproceeds⟩ := hq
    rw [phase?_of_getElem? hw] at hphase
    have hlocking := Option.some.inj hphase
    rcases hproceeds with ⟨hrunning, -⟩ | ⟨op, hrequest⟩
    · rw [hrunning] at hlocking
      cases hlocking
    · rw [hrequest] at hlocking
      cases hlocking
  | cons a rest ih =>
    obtain ⟨r, hr, hrest⟩ := performAll_cons.mp h
    have hchange := change_perform hr
    rcases locking_step hp hwaits hphase hchange with ⟨stage', hstage'⟩ | ⟨rfl, hacquires⟩ | hretired
    · exact (ih (hp.step hchange) (hwaits.step hchange) hstage' hrest).cons hphase hr
    · refine ⟨[], rest, p, r, rfl, rfl, hr, hrest, hacquires, ?_⟩
      intro mid u hmid hu
      obtain rfl := List.prefix_nil.mp hmid
      obtain rfl := Option.some.inj hu
      exact ⟨stage, hphase⟩
    · -- a thread that has been refused is retired for good, so it would not go on
      exact absurd hq (hretired.performAll hrest).not_proceeds

/-- A thread gets past a lock only as its owner. If it carries out an instruction or receives a service after
it has begun to take a lock, then a step of this very attempt has made it the owner of the lock, which nobody
owned before. A thread whose attempt was refused, because it was stopped while it waited or because it owned
the lock already, neither carries out an instruction nor receives a service ever again. -/
theorem lock_passed_by_owner (image : Image) (settings : Settings) (slot : FileSlot) (stdin : Bytes)
    (before : List Action) (p : Process) (i : Nat) (lock : Int64) (stage : LockStage)
    (hp : (image.process settings slot stdin).performAll before = some p)
    (hphase : p.phase? i = some (.locking lock stage)) :
    (∀ more q, p.performAll more = some q → q.Proceeds i → p.AcquiresWithin i lock more q) ∧
      ∀ (w : Worker) (q : Process), p.workers[i]? = some w → p.perform (.advance i) = some q →
        ((p.locks.lockStep lock i w.thread.switch.mayRun stage).1 = .abandoned ∨
          (p.locks.lockStep lock i w.thread.switch.mayRun stage).1 = .reentrant) →
        ∀ more r, q.performAll more = some r → ¬ r.Proceeds i := by
  have hcoherent : p.Coherent := (coherent_process image settings slot stdin).performAll hp
  have hwaits : p.WaitsForExisting := by
    apply performAll_induct WaitsForExisting.step _ hp
    intro k other h
    cases h
  refine ⟨fun more q h hq => acquiresWithin_of_proceeds hcoherent hwaits hphase h hq, ?_⟩
  intro w q hw hq hrefused more r hr
  rw [phase?_of_getElem? hw] at hphase
  have hretired := retired_of_refused hcoherent hw (Option.some.inj hphase) (change_perform hq) hrefused
  exact (hretired.performAll hr).not_proceeds

/-- A program whose main thread creates a thread; both then take lock 0 and end. -/
def lockRace : Image :=
  Image.make [0xa2, 0xa0, 0x00, 0x00, 0x02, 0x38, 0x16] [] 0

/-- Both threads have found that the lock does not exist, and are about to create it. -/
def lockRaceActions : List Action :=
  [.start, .boot, .boot] ++ List.replicate 8 (.advance 0) ++ List.replicate 4 (.advance 1)

/-- The main thread creates the lock and goes on as its owner. The other thread has to wait, is stopped, gives
up, and never goes on. -/
theorem lock_passed_by_owner_race :
    (∃ p q, (lockRace.process (.captured []) .absent []).performAll lockRaceActions = some p ∧
      p.phase? 0 = some (.locking 0 .create) ∧ p.performAll [.advance 0, .advance 0] = some q ∧
      q.Proceeds 0 ∧ p.AcquiresWithin 0 0 [.advance 0, .advance 0] q) ∧
    ∃ p q w, (lockRace.process (.captured []) .absent []).performAll
        (lockRaceActions ++ [.advance 0, .advance 1, .requestStop, .finishStop]) = some p ∧
      p.phase? 1 = some (.locking 0 .wait) ∧ p.workers[1]? = some w ∧ p.perform (.advance 1) = some q ∧
      (p.locks.lockStep 0 1 w.thread.switch.mayRun .wait).1 = .abandoned ∧
      ∀ more r, q.performAll more = some r → ¬ r.Proceeds 1 := by
  constructor
  · have hrun : ((lockRace.process (.captured []) .absent []).performAll lockRaceActions).map
        (fun p => (p.phase? 0, (p.performAll [.advance 0, .advance 0]).map fun q =>
          q.workers[0]?.map fun w => (w.phase, w.thread.switch.mayRun))) =
        some (some (.locking 0 .create), some (some (.running .computing, true))) := by
      decide +kernel
    obtain ⟨p, hp, hview⟩ := Option.map_eq_some_iff.mp hrun
    obtain ⟨hphase, hmore⟩ := Prod.mk.inj hview
    obtain ⟨q, hq, hmain⟩ := Option.map_eq_some_iff.mp hmore
    obtain ⟨w, hw, hexecutes⟩ := Option.map_eq_some_iff.mp hmain
    have hproceeds : q.Proceeds 0 := ⟨w, hw, .inl (Prod.mk.inj hexecutes)⟩
    have hpassed := lock_passed_by_owner _ _ _ _ _ p 0 0 .create hp hphase
    exact ⟨p, q, hp, hphase, hq, hproceeds, hpassed.1 _ q hq hproceeds⟩
  · have hrun : ((lockRace.process (.captured []) .absent []).performAll
        (lockRaceActions ++ [.advance 0, .advance 1, .requestStop, .finishStop])).map
        (fun p => (p.phase? 1, (p.perform (.advance 1)).isSome,
          p.workers[1]?.map fun w => (p.locks.lockStep 0 1 w.thread.switch.mayRun .wait).1)) =
        some (some (.locking 0 .wait), true, some .abandoned) := by
      decide +kernel
    obtain ⟨p, hp, hview⟩ := Option.map_eq_some_iff.mp hrun
    obtain ⟨hphase, hstep⟩ := Prod.mk.inj hview
    obtain ⟨hsome, hchild⟩ := Prod.mk.inj hstep
    obtain ⟨q, hq⟩ := Option.isSome_iff_exists.mp hsome
    obtain ⟨w, hw, habandoned⟩ := Option.map_eq_some_iff.mp hchild
    have hpassed := lock_passed_by_owner _ _ _ _ _ p 1 0 .wait hp hphase
    exact ⟨p, q, w, hp, hphase, hw, hq, habandoned, hpassed.2 w q hw hq (.inl habandoned)⟩

end Process

end PrefixVM
