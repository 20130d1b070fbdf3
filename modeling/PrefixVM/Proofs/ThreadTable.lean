import Mathlib.Data.List.Nodup
import PrefixVM.Proofs.JoinCycles

/-!
The thread table along a run. Threads are created in the order of their indices, and every thread but the
main one can be waited for once: by the first thread that joins it, or by the main thread at the end of the
process. The table is compared with the history of the run, which records what each call to create a thread
handed out and which threads were taken to be waited for.
-/
namespace PrefixVM

namespace Phase

def handedOut? : Phase → Option Int64
  | .storing _ value => some value
  | _ => none

def awaited? : Phase → Option Nat
  | .joining target => some target
  | _ => none

def isSweeping : Phase → Bool
  | .sweeping _ => true
  | _ => false

end Phase

namespace Process

variable {p q : Process} {a : Action} {i k : Nat} {w : Worker}

/-- The actions of a schedule, each with the state in which it is carried out. -/
def trail : Process → List Action → List (Process × Action)
  | _, [] => []
  | p, a :: rest => (p, a) :: ((p.perform a).elim [] fun q => q.trail rest)

/-- What a call to create a thread hands out to its caller, if it creates one. -/
def handsOut (e : Process × Action) : Option Int64 :=
  match e.2 with
  | .advance i =>
    if e.1.phase? i = some (.requesting .createThread) then
      ((e.1.step i).phase? i).bind Phase.handedOut?
    else none
  | _ => none

/-- The threads that an action takes in order to wait for them: the target of a join that is not refused, or
all that the main thread takes over at the end. -/
def takes (e : Process × Action) : List Nat :=
  match e.2 with
  | .advance i =>
    if e.1.phase? i = some (.requesting .joinThread) then
      (((e.1.step i).phase? i).bind Phase.awaited?).toList
    else if (e.1.phase? i).any Phase.isSweeping then e.1.joinableThreads
    else []
  | _ => []

/-- Whether the thread at a place of the table can be joined; `none` behind the end of the table. -/
def joinable? (p : Process) (i : Nat) : Option Bool :=
  p.workers[i]?.map Worker.joinable

theorem trail_concat {actions : List Action} {r : Process} (h : p.performAll actions = some q)
    (hr : q.perform a = some r) : p.trail (actions ++ [a]) = p.trail actions ++ [(q, a)] := by
  induction actions generalizing p with
  | nil =>
    obtain rfl := Option.some.inj h
    simp [trail, hr]
  | cons b rest ih =>
    obtain ⟨s, hs, hrest⟩ := performAll_cons.mp h
    rw [List.cons_append, trail, trail, hs, Option.elim_some, Option.elim_some, ih hrest, List.cons_append]

/-- What every action keeps, given the history so far, holds at the end of every schedule. -/
theorem trail_induct {Inv : List (Process × Action) → Process → Prop} (hp : Inv [] p)
    (hstep : ∀ {past p a q}, Inv past p → p.perform a = some q → Inv (past ++ [(p, a)]) q)
    {actions : List Action} (h : p.performAll actions = some q) : Inv (p.trail actions) q := by
  induction actions using List.reverseRecOn generalizing q with
  | nil =>
    obtain rfl := Option.some.inj h
    exact hp
  | append_singleton rest a ih =>
    obtain ⟨r, hr, hlast⟩ := performAll_append.mp h
    obtain ⟨s, hs, hnil⟩ := performAll_cons.mp hlast
    obtain rfl := Option.some.inj hnil
    rw [trail_concat hr hs]
    exact hstep (ih hr) hs

theorem joinable?_modify {f : Worker → Worker} (hworkers : q.workers = p.workers.modify i f)
    (hf : ∀ w, (f w).joinable = w.joinable) (k : Nat) : q.joinable? k = p.joinable? k := by
  rw [joinable?, joinable?, hworkers, Array.getElem?_modify]
  split
  next hk =>
    rw [Option.map_map]
    exact Option.map_congr fun w _ => hf w
  next => rfl

theorem joinable?_eq_none : p.joinable? i = none ↔ p.threadCount ≤ i := by
  rw [joinable?, Option.map_eq_none_iff, Array.getElem?_eq_none_iff, threadCount]

theorem joinable?_push {new : Worker} {f : Worker → Worker}
    (hworkers : q.workers = (p.workers.push new).modify i f) (hf : ∀ w, (f w).joinable = w.joinable)
    (k : Nat) :
    q.joinable? k = if k = p.threadCount then some new.joinable else p.joinable? k := by
  rw [joinable?_modify (p := { p with workers := p.workers.push new }) hworkers hf, joinable?,
    Array.getElem?_push, threadCount]
  split
  next => rfl
  next => rfl

/-- What an action does to the table, and what the history records of it. -/
inductive TableStep (p : Process) (a : Action) (q : Process) : Prop
  | keeps (hsize : q.threadCount = p.threadCount) (hunits : ∀ i, q.joinable? i = p.joinable? i)
    (hhands : handsOut (p, a) = none) (htakes : takes (p, a) = [])
  /-- The main thread enters the table. -/
  | begins (hempty : p.threadCount = 0) (hsize : q.threadCount = 1) (hunit : q.joinable? 0 = some false)
    (hhands : handsOut (p, a) = none) (htakes : takes (p, a) = [])
  | creates (hmain : 0 < p.threadCount) (hsize : q.threadCount = p.threadCount + 1)
    (hunits : ∀ i, q.joinable? i = if i = p.threadCount then some true else p.joinable? i)
    (hhands : handsOut (p, a) = some (Int64.ofNat p.threadCount)) (htakes : takes (p, a) = [])
  | joins (target : Nat) (hfree : p.joinable? target = some true) (hsize : q.threadCount = p.threadCount)
    (hunits : ∀ i, q.joinable? i = if i = target then some false else p.joinable? i)
    (hhands : handsOut (p, a) = none) (htakes : takes (p, a) = [target])
  | sweeps (hsize : q.threadCount = p.threadCount)
    (hunits : ∀ i, q.joinable? i = (p.joinable? i).map fun _ => false)
    (hhands : handsOut (p, a) = none) (htakes : takes (p, a) = p.joinableThreads)

theorem createThread_cases (p : Process) (i : Nat) (parent : Thread) :
    (∃ result, p.createThread i parent = p.setPhase i (.leaving result)) ∨
      ∃ child, (p.createThread i parent).workers =
        (p.workers.push { thread := child, joinable := true }).modify i fun w =>
          { w with phase := .storing 0 (Int64.ofNat p.workers.size) } := by
  unfold createThread
  split
  · exact .inl ⟨none, rfl⟩
  · dsimp only
    cases parent.spawn p.workers.size parent.machine.decoder.record.address with
    | error fault => exact .inl ⟨some fault, rfl⟩
    | ok child => exact .inr ⟨child, rfl⟩

/-- A thread that leaves, or goes on in any other phase, changes nothing that the table records. -/
theorem tableStep_setPhase (hw : p.workers[i]? = some w) {phase : Phase} (hstep : p.step i = p.setPhase i phase)
    (hsweeping : w.phase.isSweeping = false) (hhands : phase.handedOut? = none)
    (htakes : phase.awaited? = none) : TableStep p (.advance i) (p.setPhase i phase) := by
  have hnext : (p.setPhase i phase).phase? i = some phase := by
    rw [phase?, setPhase, getElem?_modify_self hw, Option.map_some]
  refine .keeps Array.size_modify (joinable?_modify (f := fun w => { w with phase }) rfl fun _ => rfl) ?_ ?_
  · simp only [handsOut, hstep, hnext, Option.bind_some, hhands, ite_self]
  · simp only [takes, hstep, hnext, Option.bind_some, htakes, phase?_of_getElem? hw, Option.any_some,
      hsweeping, Bool.false_eq_true, if_false, Option.toList_none, ite_self]

theorem tableStep_createThread (hw : p.workers[i]? = some w)
    (hphase : w.phase = .requesting .createThread) :
    TableStep p (.advance i) (p.createThread i w.thread) := by
  have hstep : p.step i = p.createThread i w.thread := by
    simp only [step, hw, hphase]
    rfl
  rcases createThread_cases p i w.thread with ⟨result, hleave⟩ | ⟨child, hworkers⟩
  · rw [hleave] at hstep ⊢
    exact tableStep_setPhase hw hstep (by rw [hphase]; rfl) rfl rfl
  · have hmain : 0 < p.threadCount := Nat.zero_lt_of_lt (Array.getElem?_eq_some_iff.mp hw).1
    have hbefore : p.phase? i = some (.requesting .createThread) := by
      rw [phase?_of_getElem? hw, hphase]
    have hafter : (p.createThread i w.thread).phase? i =
        some (.storing 0 (Int64.ofNat p.threadCount)) := by
      rw [phase?, hworkers, getElem?_modify_self (getElem?_push_of_some hw _), Option.map_some, threadCount]
    refine .creates hmain ?_ (joinable?_push hworkers fun _ => rfl) ?_ ?_
    · rw [threadCount, hworkers, Array.size_modify, Array.size_push, threadCount]
    · simp only [handsOut, hbefore, if_true, hstep, hafter, Option.bind_some, Phase.handedOut?]
    · simp only [takes, hbefore, Option.some.injEq, Phase.requesting.injEq, reduceCtorEq, if_false,
        Option.any_some, Phase.isSweeping, Bool.false_eq_true]

theorem workers_join {target : Nat} {value : Int64} {caller : Thread}
    (htarget : p.joinTarget caller.index value = .ok target) :
    (p.join i caller value).workers =
      (p.workers.modify target fun w => { w with joinable := false }).modify i fun w =>
        { w with phase := .joining target } := by
  rw [join, htarget]
  rfl

theorem phase?_join (hw : p.workers[i]? = some w) {target : Nat} {value : Int64}
    (htarget : p.joinTarget w.thread.index value = .ok target) :
    (p.join i w.thread value).phase? i = some (.joining target) := by
  obtain ⟨v, hv⟩ : ∃ v, (p.workers.modify target fun w => { w with joinable := false })[i]? = some v := by
    rw [Array.getElem?_modify, hw]
    split
    · exact ⟨_, rfl⟩
    · exact ⟨_, rfl⟩
  rw [phase?, workers_join htarget, getElem?_modify_self hv, Option.map_some]

theorem tableStep_joinThread (hw : p.workers[i]? = some w) (hphase : w.phase = .requesting .joinThread) :
    TableStep p (.advance i) (p.step i) := by
  have hstep : p.step i = p.orLeave i (w.thread.machine.readArg p.memory 0) (p.join i w.thread) := by
    simp only [step, hw, hphase]
    rfl
  have hsweeping : w.phase.isSweeping = false := by rw [hphase]; rfl
  cases hread : w.thread.machine.readArg p.memory 0 with
  | error fault =>
    rw [hread] at hstep
    rw [hstep]
    exact tableStep_setPhase hw hstep hsweeping rfl rfl
  | ok value =>
    have hjoin : p.step i = p.join i w.thread value := by rw [hstep, hread]; rfl
    cases htarget : p.joinTarget w.thread.index value with
    | error fault =>
      rw [join, htarget] at hjoin
      rw [hjoin]
      exact tableStep_setPhase hw hjoin hsweeping rfl rfl
    | ok target =>
      obtain ⟨t, ht, -, hfree⟩ := joinTarget_eq_ok htarget
      have hworkers : (p.step i).workers = (p.workers.modify target fun w => { w with joinable := false }).modify
          i fun w => { w with phase := .joining target } := by
        rw [hjoin, workers_join htarget]
      have hafter : (p.step i).phase? i = some (.joining target) := by
        rw [hjoin, phase?_join hw htarget]
      have hbefore : p.phase? i = some (.requesting .joinThread) := by
        rw [phase?_of_getElem? hw, hphase]
      refine .joins target ?_ ?_ ?_ ?_ ?_
      · rw [joinable?, ht, Option.map_some, hfree]
      · rw [threadCount, hworkers, Array.size_modify, Array.size_modify, threadCount]
      · -- two updates of the table: the target is taken first, and then only the phase of the caller changes
        intro k
        let r : Process := { p with workers := p.workers.modify target fun w => { w with joinable := false } }
        rw [joinable?_modify (p := r) hworkers fun _ => rfl, joinable?, Array.getElem?_modify]
        split
        next hk =>
          rw [if_pos hk.symm, ← hk, ht]
          rfl
        next hk => rw [if_neg (Ne.symm hk), joinable?]
      · simp only [handsOut, hbefore, Option.some.injEq, Phase.requesting.injEq, reduceCtorEq, if_false]
      · simp only [takes, hbefore, if_true, hafter, Option.bind_some, Phase.awaited?, Option.toList_some]

theorem tableStep_sweep (hw : p.workers[i]? = some w) {result : Option Fault}
    (hphase : w.phase = .sweeping result) : TableStep p (.advance i) (p.sweep i result) := by
  have hbefore : p.phase? i = some (.sweeping result) := by rw [phase?_of_getElem? hw, hphase]
  refine .sweeps (Array.size_modify.trans Array.size_map) ?_ ?_ ?_
  · intro k
    let r : Process := { p with workers := p.workers.map fun w => { w.stop with joinable := false } }
    have hmodify : (p.sweep i result).joinable? k = r.joinable? k :=
      joinable?_modify (f := fun w => { w with phase := .collecting p.joinableThreads result }) rfl
        (fun _ => rfl) k
    rw [hmodify, joinable?, joinable?, Array.getElem?_map, Option.map_map, Option.map_map]
    rfl
  · simp only [handsOut, hbefore, Option.some.injEq, reduceCtorEq, if_false]
  · simp only [takes, hbefore, Option.some.injEq, reduceCtorEq, if_false, Option.any_some, Phase.isSweeping,
      if_true]

theorem history_of_not_advance (ha : ∀ i, a ≠ .advance i) : handsOut (p, a) = none ∧ takes (p, a) = [] := by
  cases a with
  | advance i => exact absurd rfl (ha i)
  | start | boot | requestStop | finishStop => exact ⟨rfl, rfl⟩

theorem history_of_other (hw : p.workers[i]? = some w) (hcreate : w.phase ≠ .requesting .createThread)
    (hjoin : w.phase ≠ .requesting .joinThread) (hsweep : w.phase.isSweeping = false) :
    handsOut (p, .advance i) = none ∧ takes (p, .advance i) = [] := by
  constructor
  · simp only [handsOut, phase?_of_getElem? hw, Option.some.injEq, hcreate, if_false]
  · simp only [takes, phase?_of_getElem? hw, Option.some.injEq, hjoin, if_false, Option.any_some, hsweep,
      Bool.false_eq_true]

/-- The step of a thread that neither creates nor takes a thread. -/
theorem tableStep_of_other (h : Change p (.advance i) q) (hw : p.workers[i]? = some w)
    (hcreate : w.phase ≠ .requesting .createThread) (hjoin : w.phase ≠ .requesting .joinThread)
    (hsweep : w.phase.isSweeping = false) : TableStep p (.advance i) q := by
  obtain ⟨hhands, htakes⟩ := history_of_other hw hcreate hjoin hsweep
  cases h with
  | prepares ha => exact absurd rfl (ha i)
  | moves machine phase hv hphase hmachine hworkers hkeeps =>
    refine .keeps ?_ (joinable?_modify hworkers fun _ => rfl) hhands htakes
    rw [threadCount, hworkers, Array.size_modify, threadCount]
  | halts hv hphase =>
    exact .keeps Array.size_modify (joinable?_modify (f := fun w => { w with phase := _ }) rfl fun _ => rfl)
      hhands htakes
  | creates child hv hphase =>
    obtain rfl := Option.some.inj (hv.symm.trans hw)
    exact absurd hphase hcreate
  | joins hv hphase =>
    obtain rfl := Option.some.inj (hv.symm.trans hw)
    exact absurd hphase hjoin
  | sweeps hv hphase =>
    obtain rfl := Option.some.inj (hv.symm.trans hw)
    rw [hphase] at hsweep
    cases hsweep

/-- Only the start of the process changes the table without a step of a thread. -/
theorem tableStep_of_not_advance (hp : p.Coherent) (ha : ∀ i, a ≠ .advance i) (h : Change p a q) :
    TableStep p a q := by
  obtain ⟨hhands, htakes⟩ := history_of_not_advance (p := p) ha
  cases h with
  | prepares _ hworkers =>
    refine .keeps ?_ ?_ hhands htakes
    · rw [threadCount, hworkers, threadCount]
    · intro i
      rw [joinable?, hworkers, joinable?]
  | enters hboot =>
    have hempty : p.threadCount = 0 := hp.size_eq_zero hboot
    refine .begins hempty ?_ ?_ hhands htakes
    · exact (Array.size_push _).trans (congrArg (· + 1) hempty)
    · have hmain : p.createMain.workers[p.workers.size]? = some { thread := Thread.initial p.code } :=
        Array.getElem?_push_size
      rw [threadCount] at hempty
      rw [hempty] at hmain
      rw [joinable?, hmain, Option.map_some]
  | requests => exact .keeps rfl (fun _ => rfl) hhands htakes
  | delivers =>
    refine .keeps Array.size_map ?_ hhands htakes
    intro i
    change ((p.workers.map Worker.stop)[i]?).map Worker.joinable = _
    rw [Array.getElem?_map, Option.map_map]
    rfl
  | moves | creates | joins | halts | sweeps => exact absurd rfl (ha _)

/-- Every action that is carried out changes the table in one of the five ways. -/
theorem tableStep_perform (hp : p.Coherent) (h : p.perform a = some q) : TableStep p a q := by
  have hchange := change_perform h
  cases a with
  | advance i =>
    obtain ⟨w, hw, -, rfl⟩ := advance_eq_some h
    by_cases hcreate : w.phase = .requesting .createThread
    · rw [hcreate]
      exact tableStep_createThread hw hcreate
    by_cases hjoin : w.phase = .requesting .joinThread
    · have hstep : p.stepIn i w.thread w.phase = p.step i := by rw [step, hw]
      rw [hstep]
      exact tableStep_joinThread hw hjoin
    cases hsweep : w.phase.isSweeping with
    | false => exact tableStep_of_other hchange hw hcreate hjoin hsweep
    | true =>
      cases hphase : w.phase with
      | sweeping result => exact tableStep_sweep hw hphase
      | _ =>
        rw [hphase] at hsweep
        cases hsweep
  | start | boot | requestStop | finishStop =>
    exact tableStep_of_not_advance hp (by simp) hchange

/-- The table as the history tells it: the threads were handed out one after the other, and those that can be
joined are all but the main one and those that were taken. -/
structure Recorded (past : List (Process × Action)) (p : Process) : Prop extends Coherent p where
  handed : past.filterMap handsOut = (List.range (p.threadCount - 1)).map fun k => Int64.ofNat (k + 1)
  taken : (past.flatMap takes).Nodup
  taken_lt : ∀ {i : Nat}, i ∈ past.flatMap takes → i < p.threadCount
  joinable : ∀ {i : Nat}, p.joinable? i = some true ↔
    i < p.threadCount ∧ i ≠ Thread.mainIndex ∧ i ∉ past.flatMap takes
  down : p.shuttingDown = true → 0 < p.threadCount

theorem recorded_process (image : Image) (settings : Settings) (slot : FileSlot) (stdin : Bytes) :
    Recorded [] (image.process settings slot stdin) where
  toCoherent := coherent_process image settings slot stdin
  handed := rfl
  taken := List.nodup_nil
  taken_lt h := by cases h
  joinable := by
    intro i
    constructor
    · intro h
      cases h
    · rintro ⟨h, -⟩
      cases h
  down h := by cases h

theorem mem_joinableThreads_iff : i ∈ p.joinableThreads ↔ p.joinable? i = some true := by
  rw [joinableThreads, List.mem_filter, List.mem_range, joinable?]
  cases hw : p.workers[i]? with
  | none => simp
  | some w => simp [(Array.getElem?_eq_some_iff.mp hw).1]

theorem nodup_joinableThreads (p : Process) : p.joinableThreads.Nodup :=
  List.nodup_range.filter _

namespace TableStep

theorem size_le (h : TableStep p a q) :
    p.threadCount ≤ q.threadCount ∧ q.threadCount ≤ p.threadCount + 1 := by
  cases h with
  | keeps hsize | joins _ _ hsize | sweeps hsize | begins _ hsize | creates _ hsize => omega

/-- Only threads that can be joined are taken. -/
theorem joinable_of_mem_takes (h : TableStep p a q) (hi : i ∈ takes (p, a)) : p.joinable? i = some true := by
  cases h with
  | keeps _ _ _ htakes | begins _ _ _ _ htakes | creates _ _ _ _ htakes =>
    rw [htakes] at hi
    cases hi
  | joins target hfree _ _ _ htakes =>
    rw [htakes, List.mem_singleton] at hi
    rw [hi, hfree]
  | sweeps _ _ _ htakes =>
    rw [htakes] at hi
    exact mem_joinableThreads_iff.mp hi

theorem nodup_takes (h : TableStep p a q) : (takes (p, a)).Nodup := by
  cases h with
  | keeps _ _ _ htakes | begins _ _ _ _ htakes | creates _ _ _ _ htakes =>
    rw [htakes]
    exact List.nodup_nil
  | joins target _ _ _ _ htakes =>
    rw [htakes]
    exact List.nodup_singleton target
  | sweeps _ _ _ htakes =>
    rw [htakes]
    exact nodup_joinableThreads p

/-- Which threads can be joined afterwards: those that could be and were not taken, and a thread that was
created. -/
theorem joinable_iff (h : TableStep p a q) : q.joinable? i = some true ↔
    p.joinable? i = some true ∧ i ∉ takes (p, a) ∨
      i = p.threadCount ∧ 0 < i ∧ i < q.threadCount := by
  have hlt (hi : p.joinable? i = some true) : i < p.threadCount := by
    by_contra hge
    rw [joinable?_eq_none.mpr (Nat.not_lt.mp hge)] at hi
    cases hi
  cases h with
  | keeps hsize hunits _ htakes =>
    rw [hunits, htakes, hsize]
    grind
  | begins hempty hsize hunit _ htakes =>
    have hnone : i ≠ 0 → q.joinable? i = none := fun hi => joinable?_eq_none.mpr (by omega)
    grind
  | creates hmain hsize hunits _ htakes =>
    rw [hunits, htakes, hsize]
    grind
  | joins target hfree hsize hunits _ htakes =>
    rw [hunits, htakes, hsize]
    grind
  | sweeps hsize hunits _ htakes =>
    have hnone : (p.joinable? i).map (fun _ => false) ≠ some true := by
      cases p.joinable? i <;> simp
    rw [hunits, htakes, hsize, mem_joinableThreads_iff]
    grind

end TableStep

/-- A process that shuts down has a main thread. -/
theorem down_step (h : Change p a q) (hp : p.shuttingDown = true → 0 < p.threadCount)
    (hdown : q.shuttingDown = true) : 0 < q.threadCount := by
  have hle : p.threadCount ≤ q.threadCount := by
    rcases h.size with hsame | ⟨hmore, -⟩ <;> (rw [threadCount, threadCount]; omega)
  apply Nat.lt_of_lt_of_le _ hle
  cases h with
  | prepares _ _ _ hsame => exact hp (hsame ▸ hdown)
  | enters | requests | delivers => exact hp hdown
  | moves _ _ hw | creates _ hw | joins hw | halts hw | sweeps hw =>
    exact Nat.zero_lt_of_lt (Array.getElem?_eq_some_iff.mp hw).1

namespace Recorded

variable {past : List (Process × Action)}

theorem handed_step (hp : Recorded past p) (h : TableStep p a q) :
    (past ++ [(p, a)]).filterMap handsOut =
      (List.range (q.threadCount - 1)).map fun k => Int64.ofNat (k + 1) := by
  rw [List.filterMap_append, hp.handed]
  cases h with
  | keeps hsize _ hhands | joins _ _ hsize _ hhands | sweeps hsize _ hhands => simp [hhands, hsize]
  | begins hempty hsize _ hhands => simp [hhands, hempty, hsize]
  | creates hmain hsize _ hhands =>
    have hlast : q.threadCount - 1 = p.threadCount - 1 + 1 := by omega
    have hindex : p.threadCount - 1 + 1 = p.threadCount := by omega
    rw [hlast, List.range_succ, List.map_append, List.map_singleton, hindex]
    simp [hhands]

theorem step (hp : Recorded past p) (h : p.perform a = some q) : Recorded (past ++ [(p, a)]) q := by
  have hchange := change_perform h
  have htable := tableStep_perform hp.toCoherent h
  obtain ⟨hle, hsucc⟩ := htable.size_le
  have hpast : (past ++ [(p, a)]).flatMap takes = past.flatMap takes ++ takes (p, a) := by simp
  refine ⟨hp.toCoherent.step hchange, hp.handed_step htable, ?_, ?_, ?_, down_step hchange hp.down⟩
  · -- what is taken now can be joined, so it has not been taken before
    rw [hpast, List.nodup_append]
    refine ⟨hp.taken, htable.nodup_takes, ?_⟩
    rintro i hi j hj rfl
    exact (hp.joinable.mp (htable.joinable_of_mem_takes hj)).2.2 hi
  · intro i hi
    rw [hpast] at hi
    rcases List.mem_append.mp hi with hi | hi
    · exact Nat.lt_of_lt_of_le (hp.taken_lt hi) hle
    · exact Nat.lt_of_lt_of_le (hp.joinable.mp (htable.joinable_of_mem_takes hi)).1 hle
  · intro i
    rw [hpast, htable.joinable_iff, hp.joinable, List.mem_append, not_or]
    constructor
    · rintro (⟨⟨hi, hmain, hnot⟩, hnow⟩ | ⟨rfl, hpos, hi⟩)
      · exact ⟨by omega, hmain, hnot, hnow⟩
      · -- a new thread stands behind all that have been taken
        refine ⟨hi, Nat.ne_of_gt hpos, fun hmem => ?_, fun hmem => ?_⟩
        · exact Nat.lt_irrefl _ (hp.taken_lt hmem)
        · exact Nat.lt_irrefl _ (hp.joinable.mp (htable.joinable_of_mem_takes hmem)).1
    · rintro ⟨hi, hmain, hnot, hnow⟩
      by_cases hold : i < p.threadCount
      · exact .inl ⟨⟨hold, hmain, hnot⟩, hnow⟩
      · exact .inr ⟨by omega, Nat.pos_of_ne_zero hmain, hi⟩

theorem of_performAll {image : Image} {settings : Settings} {slot : FileSlot} {stdin : Bytes}
    {actions : List Action} (h : (image.process settings slot stdin).performAll actions = some p) :
    Recorded ((image.process settings slot stdin).trail actions) p :=
  trail_induct (recorded_process image settings slot stdin) step h

/-- Which thread a join may wait for, and why it is refused otherwise. -/
theorem joinTarget_eq (hp : Recorded past p) (caller : Nat) (value : Int64) :
    p.joinTarget caller value =
      if value.toInt < 0 ∨ p.threadCount ≤ value.toInt then .error (.invalidThread value)
      else if value.toInt = caller then .error (.selfJoin caller)
      else if value = 0 ∨ value.toInt.toNat ∈ past.flatMap takes then
        .error (.alreadyJoined value.toInt.toNat)
      else .ok value.toInt.toNat := by
  have hzero : value = 0 ↔ value.toInt = 0 := Int64.toInt_inj.symm
  have hsign : value < 0 ↔ value.toInt < 0 := Int64.lt_iff_toInt_lt
  have hfree := hp.joinable (i := value.toInt.toNat)
  rw [joinTarget]
  by_cases hneg : value.toInt < 0
  · rw [if_pos (hsign.mpr hneg), if_pos (.inl hneg)]
  · rw [if_neg (mt hsign.mp hneg)]
    dsimp only
    cases ht : p.workers[value.toInt.toNat]? with
    | none =>
      have hge : p.threadCount ≤ value.toInt.toNat := Array.getElem?_eq_none_iff.mp ht
      rw [if_pos (.inr (by omega))]
    | some t =>
      have hlt : value.toInt.toNat < p.threadCount := (Array.getElem?_eq_some_iff.mp ht).1
      rw [if_neg (by omega)]
      dsimp only
      by_cases hself : value.toInt = caller
      · have hindex : value.toInt.toNat = caller := by omega
        rw [if_pos hindex, if_pos hself, hindex]
      · rw [if_neg (by omega), if_neg hself]
        rw [joinable?, ht, Option.map_some, Option.some.injEq] at hfree
        by_cases hjoin : t.joinable = true
        · obtain ⟨-, hmain, hnot⟩ := hfree.mp hjoin
          rw [if_pos hjoin, if_neg]
          rintro (hvalue | hmem)
          · exact hmain (by rw [hzero.mp hvalue]; rfl)
          · exact hnot hmem
        · rw [if_neg hjoin, if_pos]
          by_contra hopen
          rw [not_or, hzero] at hopen
          refine hjoin (hfree.mpr ⟨hlt, ?_, hopen.2⟩)
          rw [Thread.mainIndex]
          omega

end Recorded

/-- A thread that has joined another one waits until that one has finished. -/
theorem joining_until_finished {target : Nat} (hi : p.phase? i = some (.joining target))
    {more : List Action} (h : p.performAll more = some q) :
    q.phase? i = some (.joining target) ∨ q.isFinished target = true := by
  -- by itself, being at a join is no invariant: the caller goes on, but only when the target has finished
  let Waits (r : Process) : Prop := r.phase? i = some (.joining target) ∨ r.isFinished target = true
  have hstep {r b s} (hr : Waits r) (hchange : Change r b s) : Waits s := by
    rcases hr with hwaiting | hend
    · rcases hchange.phase_step hwaiting with hsame | ⟨-, v, next, -, hjoining, -, hfollows⟩
      · exact .inl hsame
      · exact .inr (isFinished_step hchange (hfollows.of_joining hjoining))
    · exact .inr (isFinished_step hchange hend)
  exact performAll_induct hstep (.inl hi) h

/-- A thread that cannot be joined any more never can be again. -/
theorem joinable?_eq_false (hi : p.joinable? i = some false) {more : List Action}
    (h : p.performAll more = some q) : q.joinable? i = some false := by
  let Gone (r : Process) : Prop := r.joinable? i = some false
  have hstep {r b s} (hr : Gone r) (hchange : Change r b s) : Gone s := by
    obtain ⟨v, hv, hfalse⟩ := Option.map_eq_some_iff.mp hr
    obtain ⟨v', hv', hevolves⟩ := hchange.evolves hv
    simp only [Gone, joinable?, hv', Option.map_some]
    rcases hevolves.joinable with hsame | ⟨hfalse', -⟩
    · rw [hsame, hfalse]
    · rw [hfalse']
  exact performAll_induct hstep hi h

/-- No thread is added to a process that shuts down. -/
theorem threadCount_of_shuttingDown (hp : p.Coherent) (hmain : 0 < p.threadCount)
    (hdown : p.shuttingDown = true) {more : List Action} (h : p.performAll more = some q) :
    q.threadCount = p.threadCount := by
  let Closed (r : Process) : Prop := r.Coherent ∧ r.shuttingDown = true ∧ r.threadCount = p.threadCount
  have hstep {r b s} (hclosed : Closed r) (hchange : Change r b s) : Closed s := by
    obtain ⟨hr, hrdown, hcount⟩ := hclosed
    refine ⟨hr.step hchange, hchange.shuttingDown_eq_true hrdown, ?_⟩
    rcases hchange.size with hsame | ⟨-, v, -, henters⟩
    · exact hsame.trans hcount
    · -- the main thread is there already, and no other thread is created
      rcases henters.cause with ⟨-, hboot, -⟩ | ⟨hopen, -⟩
      · have hempty := hr.size_eq_zero hboot
        rw [threadCount] at hcount
        omega
      · rw [hrdown] at hopen
        cases hopen
  have hclosed : Closed q := performAll_induct hstep ⟨hp, hdown, rfl⟩ h
  exact hclosed.2.2

/-- The table as the threads see it: the switch of each entry, whether it can be joined, and whether the process
shuts down. -/
def table (p : Process) : List (Switch × Bool) × Bool :=
  ((p.workers.map fun w => (w.thread.switch, w.joinable)).toList, p.shuttingDown)

theorem table_leave (p : Process) (i : Nat) (fault : Fault) : (p.leave i fault).table = p.table := by
  have hmap : (p.leave i fault).workers.map (fun w => (w.thread.switch, w.joinable)) =
      p.workers.map fun w => (w.thread.switch, w.joinable) := by
    apply Array.ext_getElem?
    intro k
    rw [leave, setPhase, Array.getElem?_map, Array.getElem?_map, Array.getElem?_modify]
    split
    next => rw [Option.map_map]; rfl
    next => rfl
  rw [table, hmap]
  rfl

/-- Why a join is refused, given the threads that have been taken so far. -/
def refusal? (p : Process) (taken : List Nat) (caller : Nat) (value : Int64) : Option Fault :=
  if value.toInt < 0 ∨ p.threadCount ≤ value.toInt then some (.invalidThread value)
  else if value.toInt = caller then some (.selfJoin caller)
  else if value = 0 ∨ value.toInt.toNat ∈ taken then some (.alreadyJoined value.toInt.toNat)
  else none

theorem Recorded.joinTarget_eq_elim {past : List (Process × Action)} (hp : Recorded past p) (caller : Nat)
    (value : Int64) : p.joinTarget caller value =
      (p.refusal? (past.flatMap takes) caller value).elim (.ok value.toInt.toNat) .error := by
  rw [hp.joinTarget_eq, refusal?]
  split
  · rfl
  · split
    · rfl
    · split
      · rfl
      · rfl

theorem perform_join (hw : p.workers[i]? = some w) (hphase : w.phase = .requesting .joinThread)
    {value : Int64} (hread : w.thread.machine.readArg p.memory 0 = .ok value) :
    p.perform (.advance i) = some (p.join i w.thread value) := by
  have henabled : p.enabled i = true := by simp only [enabled, hw, hphase]
  have hstep : p.step i = p.join i w.thread value := by
    simp only [step, hw, hphase, stepIn, serve, hread]
    rfl
  simp only [perform, advance, henabled, if_true, hstep]

/-- The thread table along every run. Each thread is at the place that its index names. The calls that create a
thread, whoever makes them, hand out 1, 2, 3 and so on. A thread can be joined if it is not the main one and
has not been taken; no thread is taken twice, by joins or by the end of the process, and none is given back.
Who has joined a thread goes on only after it has finished. A join is refused if its value is no index of the
table, is that of the caller, or is that of the main thread or of a thread that was taken, in this order, and
then leaves the table as it is. No thread is added once the process shuts down. -/
theorem thread_table_lawful (image : Image) (settings : Settings) (slot : FileSlot) (stdin : Bytes)
    (actions : List Action) (p : Process)
    (hp : (image.process settings slot stdin).performAll actions = some p) :
    let past := (image.process settings slot stdin).trail actions
    let taken := past.flatMap takes
    (∀ (i : Nat) (w : Worker), p.workers[i]? = some w →
      w.thread.index = i ∧ (w.joinable = true ↔ i ≠ Thread.mainIndex ∧ i ∉ taken)) ∧
    past.filterMap handsOut = (List.range (p.threadCount - 1)).map (fun k => Int64.ofNat (k + 1)) ∧
    taken.Nodup ∧
    (∀ (i : Nat) (w : Worker) (value : Int64), p.workers[i]? = some w →
      w.phase = .requesting .joinThread → w.thread.machine.readArg p.memory 0 = .ok value →
      (∀ fault, p.refusal? taken i value = some fault →
        p.perform (.advance i) = some (p.leave i fault) ∧ (p.leave i fault).table = p.table) ∧
      (p.refusal? taken i value = none →
        ∃ q, p.perform (.advance i) = some q ∧ q.phase? i = some (.joining value.toInt.toNat))) ∧
    ∀ (more : List Action) (q : Process), p.performAll more = some q →
      (∀ i, p.joinable? i = some false → q.joinable? i = some false) ∧
      (∀ i target, p.phase? i = some (.joining target) →
        q.phase? i = some (.joining target) ∨ q.isFinished target = true) ∧
      (p.shuttingDown = true → q.threadCount = p.threadCount) := by
  intro past taken
  have hrecorded : Recorded past p := .of_performAll hp
  refine ⟨?_, hrecorded.handed, hrecorded.taken, ?_, ?_⟩
  · intro i w hw
    refine ⟨hrecorded.index hw, ?_⟩
    have hlt : i < p.threadCount := (Array.getElem?_eq_some_iff.mp hw).1
    have hiff := hrecorded.joinable (i := i)
    rw [joinable?, hw, Option.map_some, Option.some.injEq] at hiff
    rw [hiff]
    exact and_iff_right hlt
  · intro i w value hw hphase hread
    have htarget := hrecorded.joinTarget_eq_elim i value
    have hperform := perform_join hw hphase hread
    constructor
    · intro fault hfault
      rw [hfault, Option.elim_some] at htarget
      rw [hperform, join, hrecorded.index hw, htarget]
      exact ⟨rfl, table_leave p i fault⟩
    · intro hnone
      rw [hnone, Option.elim_none] at htarget
      rw [← hrecorded.index hw] at htarget
      exact ⟨_, hperform, phase?_join hw htarget⟩
  · intro more q hq
    refine ⟨fun i hi => joinable?_eq_false hi hq, fun i target hi => joining_until_finished hi hq, ?_⟩
    intro hdown
    exact threadCount_of_shuttingDown hrecorded.toCoherent (hrecorded.down hdown) hdown hq

/-- A program whose main thread creates a thread and joins it twice. -/
def joinTwice : Image :=
  Image.make [0xa6, 0x10, 0x00, 0x00, 0x02, 0x2a, 0x8a, 0xa2, 0xd6] [] 0

/-- The thread is created, joined and finished, and the main thread is about to join it again. -/
def joinTwiceActions : List Action :=
  [.start, .boot, .boot] ++ List.replicate 7 (.advance 0) ++ List.replicate 4 (.advance 1) ++
    List.replicate 3 (.advance 0)

theorem thread_table_lawful_joinTwice :
    ∃ p w, (joinTwice.process (.captured []) .absent []).performAll joinTwiceActions = some p ∧
      p.workers[0]? = some w ∧ w.phase = .requesting .joinThread ∧
      w.thread.machine.readArg p.memory 0 = .ok 1 ∧
      ((joinTwice.process (.captured []) .absent []).trail joinTwiceActions).filterMap handsOut = [1] ∧
      p.perform (.advance 0) = some (p.leave 0 (.alreadyJoined 1)) := by
  have hrun : ((joinTwice.process (.captured []) .absent []).performAll joinTwiceActions).map
      (fun p => (p.threadCount, p.workers[0]?.map fun w =>
        (w.phase, (w.thread.machine.readArg p.memory 0).toOption))) =
      some (2, some (.requesting .joinThread, some 1)) := by
    decide +kernel
  have htaken : ((joinTwice.process (.captured []) .absent []).trail joinTwiceActions).flatMap takes = [1] := by
    decide +kernel
  obtain ⟨p, hp, hview⟩ := Option.map_eq_some_iff.mp hrun
  obtain ⟨hcount, hmain⟩ := Prod.mk.inj hview
  obtain ⟨w, hw, hcall⟩ := Option.map_eq_some_iff.mp hmain
  obtain ⟨hphase, hvalue⟩ := Prod.mk.inj hcall
  have hread : w.thread.machine.readArg p.memory 0 = .ok 1 := by
    cases h : w.thread.machine.readArg p.memory 0 with
    | error fault =>
      rw [h] at hvalue
      cases hvalue
    | ok v =>
      rw [h] at hvalue
      rw [Option.some.inj hvalue]
  obtain ⟨-, hhanded, -, hjoin, -⟩ := thread_table_lawful _ _ _ _ _ p hp
  have hrefusal : p.refusal? [1] 0 1 = some (.alreadyJoined 1) := by
    rw [refusal?, hcount]
    decide
  rw [hcount] at hhanded
  refine ⟨p, w, hp, hw, hphase, hread, hhanded, ?_⟩
  apply ((hjoin 0 w 1 hw hphase hread).1 _ _).1
  rw [htaken, hrefusal]

end Process

end PrefixVM
