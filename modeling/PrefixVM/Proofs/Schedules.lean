import PrefixVM.Proofs.Turns

/-!
Runs of a process. An action is seen here from each entry of the thread table: what becomes of the entry, and
which entries are new. What an action keeps is kept by every schedule, and so holds in every state that a
process reaches from its start.
-/
namespace PrefixVM.Process

variable {p q : Process} {a : Action} {i : Nat} {w : Worker}

def phase? (p : Process) (i : Nat) : Option Phase :=
  p.workers[i]?.map Worker.phase

theorem phase?_eq_some_iff {phase : Phase} :
    p.phase? i = some phase ↔ ∃ w, p.workers[i]? = some w ∧ w.phase = phase :=
  Option.map_eq_some_iff

theorem phase?_of_getElem? (hw : p.workers[i]? = some w) : p.phase? i = some w.phase := by
  rw [phase?, hw, Option.map_some]

theorem phase?_mainIndex {result : Option Fault} (h : p.result? = some result) :
    p.phase? Thread.mainIndex = some (.finished result) := by
  unfold result? at h
  split at h
  next hw =>
    obtain rfl := Option.some.inj h
    rw [phase?_of_getElem? hw]
  next => cases h

/-- Some thread waits for the thread, or has taken it over to wait for it later. -/
def Claimed (p : Process) (i : Nat) : Prop :=
  (∃ k, p.phase? k = some (.joining i)) ∨
    ∃ k threads result, p.phase? k = some (.collecting threads result) ∧ i ∈ threads

/-- What an action makes of an entry of the thread table. -/
structure Evolves (p : Process) (a : Action) (q : Process) (i : Nat) (w w' : Worker) : Prop where
  index : w'.thread.index = w.thread.index
  turn : a = .advance i → Phase.Follows p q w w'.phase
  rest : a ≠ .advance i → w'.phase = w.phase
  place : a = .advance i ∧ w.Executes ∨ w'.thread.machine.decoder = w.thread.machine.decoder ∧
    w'.thread.machine.stack = w.thread.machine.stack
  switch : w'.thread.switch = w.thread.switch ∨ w'.thread.switch.mayRun = false ∧
    (0 < p.pendingStops ∨ ∃ k result, p.phase? k = some (.sweeping result))
  joinable : w'.joinable = w.joinable ∨ w'.joinable = false ∧ q.Claimed i

/-- How a new entry comes into the table. -/
structure Enters (p : Process) (a : Action) (w : Worker) : Prop where
  phase : w.phase = .serving
  switch : w.thread.switch.mayRun = true
  cause : (a = .boot ∧ p.boot = .opened ∧ w.thread.index = Thread.mainIndex ∧ w.joinable = false) ∨
    p.shuttingDown = false ∧ p.switch.mayRun = true ∧ w.thread.index = p.workers.size ∧ w.joinable = true ∧
      ∃ k, a = .advance k ∧ p.phase? k = some (.requesting .createThread)

theorem mem_joinableThreads (hw : p.workers[i]? = some w) (hfree : w.joinable = true) :
    i ∈ p.joinableThreads := by
  rw [joinableThreads, List.mem_filter, List.mem_range, hw]
  exact ⟨(Array.getElem?_eq_some_iff.mp hw).1, hfree⟩

/-- An entry that an action does not touch. -/
theorem Evolves.untouched (p : Process) {a : Action} (q : Process) (i : Nat) (w : Worker)
    (ha : a ≠ .advance i) : Evolves p a q i w w :=
  ⟨rfl, fun h => absurd h ha, fun _ => rfl, .inr ⟨rfl, rfl⟩, .inl rfl, .inl rfl⟩

theorem getElem?_modify_self {workers : Array Worker} {f : Worker → Worker} (hw : workers[i]? = some w) :
    (workers.modify i f)[i]? = some (f w) := by
  rw [Array.getElem?_modify, if_pos rfl, hw, Option.map_some]

theorem getElem?_modify_of_ne (workers : Array Worker) (f : Worker → Worker) {k : Nat} (hne : k ≠ i) :
    (workers.modify k f)[i]? = workers[i]? := by
  rw [Array.getElem?_modify, if_neg hne]

theorem getElem?_push_of_some {workers : Array Worker} (hw : workers[i]? = some w) (new : Worker) :
    (workers.push new)[i]? = some w := by
  have hlt : i < workers.size := (Array.getElem?_eq_some_iff.mp hw).1
  rw [Array.getElem?_push, if_neg (Nat.ne_of_lt hlt), hw]

/-- A step of a thread that changes no other entry. -/
theorem evolves_of_own {k : Nat} {v v' : Worker} (hv : p.workers[k]? = some v)
    (hown : q.workers[k]? = some v') (hevolves : Evolves p (.advance k) q k v v')
    (hothers : ∀ {j u}, k ≠ j → p.workers[j]? = some u → q.workers[j]? = some u)
    (hw : p.workers[i]? = some w) :
    ∃ w', q.workers[i]? = some w' ∧ Evolves p (.advance k) q i w w' := by
  by_cases hik : k = i
  · subst hik
    obtain rfl := Option.some.inj (hv.symm.trans hw)
    exact ⟨v', hown, hevolves⟩
  · exact ⟨w, hothers hik hw, .untouched p q i w fun h => hik (Action.advance.inj h)⟩

theorem evolves_joins {k target : Nat} {caller : Worker} (hcaller : p.workers[k]? = some caller)
    (hphase : Phase.Follows p q caller (.joining target))
    (hworkers : q.workers = (p.workers.modify target fun w => { w with joinable := false }).modify k
      fun w => { w with phase := .joining target })
    (hw : p.workers[i]? = some w) :
    ∃ w', q.workers[i]? = some w' ∧ Evolves p (.advance k) q i w w' := by
  -- the two entries that a join changes are not the same one, but nothing here depends on that
  let take (j : Nat) (v : Worker) : Worker := { v with joinable := if target = j then false else v.joinable }
  have htake {j : Nat} {v : Worker} (hv : p.workers[j]? = some v) :
      (p.workers.modify target fun w => { w with joinable := false })[j]? = some (take j v) := by
    rw [Array.getElem?_modify, hv]
    by_cases hj : target = j <;> simp [take, hj]
  have hclaimed : q.Claimed target := by
    refine .inl ⟨k, ?_⟩
    rw [phase?, hworkers, getElem?_modify_self (htake hcaller), Option.map_some]
  have hjoinable : (take i w).joinable = w.joinable ∨ (take i w).joinable = false ∧ q.Claimed i := by
    by_cases hi : target = i
    · subst hi
      exact .inr ⟨by simp [take], hclaimed⟩
    · exact .inl (by simp [take, hi])
  rw [hworkers]
  by_cases hik : k = i
  · subst hik
    obtain rfl := Option.some.inj (hcaller.symm.trans hw)
    exact ⟨_, getElem?_modify_self (htake hw), rfl, fun _ => hphase, fun h => absurd rfl h,
      .inr ⟨rfl, rfl⟩, .inl rfl, hjoinable⟩
  · rw [getElem?_modify_of_ne _ _ hik, htake hw]
    exact ⟨_, rfl, rfl, fun h => absurd (Action.advance.inj h) hik, fun _ => rfl, .inr ⟨rfl, rfl⟩,
      .inl rfl, hjoinable⟩

theorem swept_sweep (p : Process) (i : Nat) (result : Option Fault) : (p.sweep i result).Swept := by
  have hentry {j : Nat} {w : Worker} (hw : (p.sweep i result).workers[j]? = some w) :
      w.joinable = false ∧ w.thread.switch.mayRun = false := by
    change ((p.workers.map fun w => { w.stop with joinable := false }).modify i fun w =>
      { w with phase := .collecting p.joinableThreads result })[j]? = some w at hw
    rw [Array.getElem?_modify, Array.getElem?_map] at hw
    cases hv : p.workers[j]? with
    | none =>
      rw [hv] at hw
      split at hw <;> cases hw
    | some v =>
      rw [hv] at hw
      split at hw <;> (obtain rfl := Option.some.inj hw; exact ⟨rfl, rfl⟩)
  exact ⟨rfl, fun hw => (hentry hw).1, fun hw => (hentry hw).2⟩

theorem evolves_sweeps {k : Nat} {main : Worker} {result : Option Fault}
    (hmain : p.workers[k]? = some main) (hphase : main.phase = .sweeping result)
    (hw : p.workers[i]? = some w) :
    ∃ w', (p.sweep k result).workers[i]? = some w' ∧
      Evolves p (.advance k) (p.sweep k result) i w w' := by
  let stopped (w : Worker) : Worker := { w.stop with joinable := false }
  have hmap {j : Nat} {v : Worker} (hv : p.workers[j]? = some v) :
      (p.workers.map stopped)[j]? = some (stopped v) := by
    rw [Array.getElem?_map, hv, Option.map_some]
  have hworkers : (p.sweep k result).workers =
      (p.workers.map stopped).modify k fun w => { w with phase := .collecting p.joinableThreads result } := rfl
  have hcause : 0 < p.pendingStops ∨ ∃ j r, p.phase? j = some (.sweeping r) :=
    .inr ⟨k, result, hphase ▸ phase?_of_getElem? hmain⟩
  -- every thread that could be joined is on the list of the sweeping thread
  have hjoinable : false = w.joinable ∨ false = false ∧ (p.sweep k result).Claimed i := by
    cases hfree : w.joinable with
    | false => exact .inl rfl
    | true =>
      refine .inr ⟨rfl, .inr ⟨k, p.joinableThreads, result, ?_, mem_joinableThreads hw hfree⟩⟩
      rw [phase?, hworkers, getElem?_modify_self (hmap hmain), Option.map_some]
  rw [hworkers]
  by_cases hik : k = i
  · subst hik
    obtain rfl := Option.some.inj (hmain.symm.trans hw)
    exact ⟨_, getElem?_modify_self (hmap hw), rfl, fun _ => .sweeps hphase (swept_sweep p k result), fun h => absurd rfl h,
      .inr ⟨rfl, rfl⟩, .inr ⟨rfl, hcause⟩, hjoinable⟩
  · rw [getElem?_modify_of_ne _ _ hik, hmap hw]
    exact ⟨_, rfl, rfl, fun h => absurd (Action.advance.inj h) hik, fun _ => rfl, .inr ⟨rfl, rfl⟩,
      .inr ⟨rfl, hcause⟩, hjoinable⟩

/-- No entry is ever removed from the table, and each changes only in the ways of `Evolves`. -/
theorem Change.evolves (h : Change p a q) (hw : p.workers[i]? = some w) :
    ∃ w', q.workers[i]? = some w' ∧ Evolves p a q i w w' := by
  cases h with
  | prepares ha hworkers =>
    rw [hworkers]
    exact ⟨w, hw, .untouched p q i w (ha i)⟩
  | enters hboot => exact ⟨w, getElem?_push_of_some hw _, .untouched p _ i w (by simp)⟩
  | requests => exact ⟨w, hw, .untouched p _ i w (by simp)⟩
  | delivers hpending =>
    refine ⟨w.stop, ?_, rfl, by simp, fun _ => rfl, .inr ⟨rfl, rfl⟩, .inr ⟨rfl, .inl ?_⟩, .inl rfl⟩
    · change (p.workers.map Worker.stop)[i]? = _
      rw [Array.getElem?_map, hw, Option.map_some]
    · rw [hpending]
      exact Nat.succ_pos _
  | moves machine phase hmover hphase hmachine hworkers hkeeps =>
    have hown := getElem?_modify_self (f := Worker.resume machine phase) hmover
    apply evolves_of_own hmover (hworkers ▸ hown) _ _ hw
    · exact ⟨rfl, fun _ => hphase, fun h => absurd rfl h, hmachine.imp_left (⟨rfl, ·⟩), .inl rfl, .inl rfl⟩
    · intro j u hj hu
      rw [hworkers, getElem?_modify_of_ne _ _ hj, hu]
  | creates child hparent hphase hdown hswitch hindex hfresh hworkers hkeeps =>
    have hown := getElem?_modify_self (f := fun w => { w with phase := .storing 0 (Int64.ofNat p.workers.size) })
      (getElem?_push_of_some hparent { thread := child, joinable := true })
    apply evolves_of_own hparent (hworkers ▸ hown) _ _ hw
    · exact ⟨rfl, fun _ => .works (by rw [hphase]; rfl) rfl, fun h => absurd rfl h, .inr ⟨rfl, rfl⟩,
        .inl rfl, .inl rfl⟩
    · intro j u hj hu
      rw [hworkers, getElem?_modify_of_ne _ _ hj, getElem?_push_of_some hu]
  | joins hcaller hphase htarget hother hfree hworkers hkeeps =>
    exact evolves_joins hcaller (.joins hphase htarget hother hfree) hworkers hw
  | halts hmain hphase =>
    apply evolves_of_own hmain (getElem?_modify_self hmain) _ _ hw
    · exact ⟨rfl, fun _ => .stops hphase rfl, fun h => absurd rfl h, .inr ⟨rfl, rfl⟩, .inl rfl, .inl rfl⟩
    · intro j u hj hu
      exact (getElem?_modify_of_ne _ _ hj).trans hu
  | sweeps hmain hphase => exact evolves_sweeps hmain hphase hw

/-- At most one entry is added, at the end of the table. -/
theorem Change.size (h : Change p a q) :
    q.workers.size = p.workers.size ∨
      q.workers.size = p.workers.size + 1 ∧ ∃ w, q.workers[p.workers.size]? = some w ∧ Enters p a w := by
  cases h with
  | prepares ha hworkers => exact .inl (congrArg _ hworkers)
  | enters hboot =>
    exact .inr ⟨Array.size_push _, _, Array.getElem?_push_size, rfl, rfl, .inl ⟨rfl, hboot, rfl, rfl⟩⟩
  | requests => exact .inl rfl
  | delivers hpending => exact .inl Array.size_map
  | moves machine phase hmover hphase hmachine hworkers hkeeps =>
    rw [hworkers]
    exact .inl Array.size_modify
  | @creates k parent q child hparent hphase hdown hswitch hindex hfresh hworkers hkeeps =>
    have hk : k ≠ p.workers.size := Nat.ne_of_lt (Array.getElem?_eq_some_iff.mp hparent).1
    rw [hworkers]
    refine .inr ⟨by rw [Array.size_modify, Array.size_push], _,
      (getElem?_modify_of_ne _ _ hk).trans Array.getElem?_push_size, rfl, hfresh, ?_⟩
    exact .inr ⟨hdown, hswitch, hindex, rfl, k, rfl, hphase ▸ phase?_of_getElem? hparent⟩
  | joins hcaller hphase htarget hother hfree hworkers hkeeps =>
    rw [hworkers]
    exact .inl (by rw [Array.size_modify, Array.size_modify])
  | halts hmain hphase => exact .inl Array.size_modify
  | sweeps hmain hphase => exact .inl (Array.size_modify.trans Array.size_map)

/-- Where an entry comes from. -/
theorem Change.origin (h : Change p a q) {w' : Worker} (hw' : q.workers[i]? = some w') :
    (∃ w, p.workers[i]? = some w ∧ Evolves p a q i w w') ∨ i = p.workers.size ∧ Enters p a w' := by
  cases hw : p.workers[i]? with
  | some w =>
    obtain ⟨w'', hw'', hevolves⟩ := h.evolves hw
    obtain rfl := Option.some.inj (hw''.symm.trans hw')
    exact .inl ⟨w, rfl, hevolves⟩
  | none =>
    have hle : p.workers.size ≤ i := Array.getElem?_eq_none_iff.mp hw
    have hlt : i < q.workers.size := (Array.getElem?_eq_some_iff.mp hw').1
    rcases h.size with hsize | ⟨hsize, v, hv, henters⟩
    · omega
    · obtain rfl : i = p.workers.size := by omega
      obtain rfl := Option.some.inj (hv.symm.trans hw')
      exact .inr ⟨rfl, henters⟩

/-- What becomes of a phase: the thread stays in it until its own turn. -/
theorem Change.phase_step (h : Change p a q) {phase : Phase} (hi : p.phase? i = some phase) :
    q.phase? i = some phase ∨ a = .advance i ∧ ∃ w next, p.workers[i]? = some w ∧ w.phase = phase ∧
      q.phase? i = some next ∧ Phase.Follows p q w next := by
  obtain ⟨w, hw, hphase⟩ := phase?_eq_some_iff.mp hi
  obtain ⟨w', hw', hevolves⟩ := h.evolves hw
  by_cases ha : a = .advance i
  · exact .inr ⟨ha, w, w'.phase, hw, hphase, phase?_of_getElem? hw', hevolves.turn ha⟩
  · have hsame : w'.phase = phase := (hevolves.rest ha).trans hphase
    exact .inl (phase?_eq_some_iff.mpr ⟨w', hw', hsame⟩)

/-- Where a phase comes from: the thread was in it before, or has entered it in its own turn, or is new. -/
theorem Change.phase_origin (h : Change p a q) {phase : Phase} (hi : q.phase? i = some phase) :
    p.phase? i = some phase ∨ (∃ w, p.workers[i]? = some w ∧ Phase.Follows p q w phase) ∨
      phase = .serving := by
  obtain ⟨w', hw', hphase⟩ := phase?_eq_some_iff.mp hi
  rcases h.origin hw' with ⟨w, hw, hevolves⟩ | ⟨-, henters⟩
  · by_cases ha : a = .advance i
    · exact .inr (.inl ⟨w, hw, hphase ▸ hevolves.turn ha⟩)
    · have hsame : w.phase = phase := (hevolves.rest ha).symm.trans hphase
      exact .inl (phase?_eq_some_iff.mpr ⟨w, hw, hsame⟩)
  · exact .inr (.inr (hphase.symm.trans henters.phase))

theorem Change.mayRun_eq_false (h : Change p a q) (hp : p.switch.mayRun = false) :
    q.switch.mayRun = false := by
  cases h with
  | prepares ha hworkers hswitch => rw [hswitch, hp]
  | moves machine phase hw hphase hmachine hworkers hkeeps => rw [hkeeps.switch, hp]
  | creates child hw hphase hdown hswitch hindex hfresh hworkers hkeeps => rw [hkeeps.switch, hp]
  | joins hw hphase htarget hother hfree hworkers hkeeps => rw [hkeeps.switch, hp]
  | enters | delivers | sweeps => exact hp
  | requests | halts => rfl

theorem Change.shuttingDown_eq_true (h : Change p a q) (hp : p.shuttingDown = true) :
    q.shuttingDown = true := by
  cases h with
  | prepares ha hworkers hswitch hdown => rw [hdown, hp]
  | moves machine phase hw hphase hmachine hworkers hkeeps => rw [hkeeps.shuttingDown, hp]
  | creates child hw hphase hdown hswitch hindex hfresh hworkers hkeeps => rw [hkeeps.shuttingDown, hp]
  | joins hw hphase htarget hother hfree hworkers hkeeps => rw [hkeeps.shuttingDown, hp]
  | enters | requests | delivers | halts => exact hp
  | sweeps => rfl

theorem Change.boot_eq_running (h : Change p a q) (hp : p.boot = .running) : q.boot = .running := by
  cases h with
  | prepares ha hworkers hswitch hdown hpending hboot => exact hboot hp
  | moves machine phase hw hphase hmachine hworkers hkeeps => rw [hkeeps.boot, hp]
  | creates child hw hphase hdown hswitch hindex hfresh hworkers hkeeps => rw [hkeeps.boot, hp]
  | joins hw hphase htarget hother hfree hworkers hkeeps => rw [hkeeps.boot, hp]
  | requests | delivers | halts | sweeps => exact hp
  | enters => rfl

/-- A request to stop becomes pending only together with the switch of the process. -/
theorem Change.pendingStops_le (h : Change p a q) :
    q.pendingStops ≤ p.pendingStops ∨ q.switch.mayRun = false := by
  cases h with
  | prepares ha hworkers hswitch hdown hpending => exact .inl (Nat.le_of_eq hpending)
  | moves machine phase hw hphase hmachine hworkers hkeeps => exact .inl (Nat.le_of_eq hkeeps.pendingStops)
  | creates child hw hphase hdown hswitch hindex hfresh hworkers hkeeps =>
    exact .inl (Nat.le_of_eq hkeeps.pendingStops)
  | joins hw hphase htarget hother hfree hworkers hkeeps => exact .inl (Nat.le_of_eq hkeeps.pendingStops)
  | delivers hpending =>
    rw [hpending]
    exact .inl (Nat.le_succ _)
  | enters | sweeps => exact .inl (Nat.le_refl _)
  | requests | halts => exact .inr rfl

theorem performAll_cons {rest : List Action} :
    p.performAll (a :: rest) = some q ↔ ∃ r, p.perform a = some r ∧ r.performAll rest = some q :=
  Option.bind_eq_some_iff

/-- What every action keeps is kept by every schedule. -/
theorem perform_induct {Inv : Process → Prop}
    (hstep : ∀ {p a q}, Inv p → p.perform a = some q → Inv q) {actions : List Action} (hp : Inv p)
    (h : p.performAll actions = some q) : Inv q := by
  induction actions generalizing p with
  | nil =>
    obtain rfl := Option.some.inj h
    exact hp
  | cons a rest ih =>
    obtain ⟨r, hr, hrest⟩ := performAll_cons.mp h
    exact ih (hstep hp hr) hrest

/-- The same for what can be told from the way in which an action changes the process. -/
theorem performAll_induct {Inv : Process → Prop}
    (hstep : ∀ {p a q}, Inv p → Change p a q → Inv q) {actions : List Action} (hp : Inv p)
    (h : p.performAll actions = some q) : Inv q :=
  perform_induct (fun hp hr => hstep hp (change_perform hr)) hp h

theorem performAll_append {first second : List Action} :
    p.performAll (first ++ second) = some q ↔
      ∃ r, p.performAll first = some r ∧ r.performAll second = some q := by
  induction first generalizing p with
  | nil => simp [performAll]
  | cons a rest ih =>
    simp only [List.cons_append, performAll, Option.bind_eq_bind, Option.bind_eq_some_iff, ih]
    constructor
    · rintro ⟨r, hr, s, hs, hq⟩
      exact ⟨s, ⟨r, hr, hs⟩, hq⟩
    · rintro ⟨s, ⟨r, hr, hs⟩, hq⟩
      exact ⟨r, hr, s, hs, hq⟩

/-- Every thread is at the place in the table that its index names, there are no threads before the process
runs, and nobody is told to stop before the process is. -/
structure Coherent (p : Process) : Prop where
  index : ∀ {i : Nat} {w : Worker}, p.workers[i]? = some w → w.thread.index = i
  boot : p.boot = .running ∨ p.workers.size = 0
  pending : 0 < p.pendingStops → p.switch.mayRun = false
  sweeping : ∀ {i result}, p.phase? i = some (.sweeping result) → p.switch.mayRun = false
  switch : ∀ {i : Nat} {w : Worker}, p.workers[i]? = some w → w.thread.switch.mayRun = false →
    p.switch.mayRun = false

theorem coherent_process (image : Image) (settings : Settings) (slot : FileSlot) (stdin : Bytes) :
    (image.process settings slot stdin).Coherent where
  index h := by cases h
  boot := .inr rfl
  pending h := by cases h
  sweeping h := by cases h
  switch h := by cases h

/-- The main thread is the first one in the table. -/
theorem Coherent.size_eq_zero (hp : p.Coherent) (hboot : p.boot = .opened) : p.workers.size = 0 := by
  rcases hp.boot with hrun | hsize
  · rw [hboot] at hrun
    cases hrun
  · exact hsize

theorem Coherent.index_step (hp : p.Coherent) (h : Change p a q) {w' : Worker}
    (hw' : q.workers[i]? = some w') : w'.thread.index = i := by
  rcases h.origin hw' with ⟨w, hw, hevolves⟩ | ⟨rfl, henters⟩
  · rw [hevolves.index, hp.index hw]
  · rcases henters.cause with ⟨-, hboot, hindex, -⟩ | ⟨-, -, hindex, -⟩
    · rw [hindex, hp.size_eq_zero hboot]
      rfl
    · exact hindex

theorem Coherent.boot_step (hp : p.Coherent) (h : Change p a q) :
    q.boot = .running ∨ q.workers.size = 0 := by
  rcases hp.boot with hrun | hsize
  · exact .inl (h.boot_eq_running hrun)
  · have hnone (i : Nat) : p.workers[i]? = none := Array.getElem?_eq_none (by omega)
    -- without a thread only the boot can go on
    cases h with
    | prepares ha hworkers => exact .inr (hworkers ▸ hsize)
    | enters => exact .inl rfl
    | requests => exact .inr hsize
    | delivers => exact .inr (Array.size_map.trans hsize)
    | moves machine phase hw | creates child hw | joins hw | halts hw | sweeps hw =>
      rw [hnone] at hw
      cases hw

theorem Coherent.step (hp : p.Coherent) (h : Change p a q) : q.Coherent where
  index hw := hp.index_step h hw
  boot := hp.boot_step h
  pending hpending := by
    rcases h.pendingStops_le with hle | hstop
    · exact h.mayRun_eq_false (hp.pending (Nat.lt_of_lt_of_le hpending hle))
    · exact hstop
  sweeping {i result} hphase := by
    rcases h.phase_origin hphase with hbefore | ⟨w, hw, hfollows⟩ | hnew
    · exact h.mayRun_eq_false (hp.sweeping hbefore)
    · exact hfollows.into_sweeping
    · cases hnew
  switch {i w'} hw' hoff := by
    rcases h.origin hw' with ⟨w, hw, hevolves⟩ | ⟨-, henters⟩
    · apply h.mayRun_eq_false
      -- whoever throws the switch of a thread has thrown that of the process before
      rcases hevolves.switch with hsame | ⟨-, hpending | ⟨k, result, hsweeping⟩⟩
      · exact hp.switch hw (hsame ▸ hoff)
      · exact hp.pending hpending
      · exact hp.sweeping hsweeping
    · rw [henters.switch] at hoff
      cases hoff

theorem Coherent.performAll (hp : p.Coherent) {actions : List Action} (h : p.performAll actions = some q) :
    q.Coherent :=
  performAll_induct Coherent.step hp h

end PrefixVM.Process
