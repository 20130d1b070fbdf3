import PrefixVM.Proofs.Lowering

/-!
Assembling preserves meaning. The machine that runs an assembled image does step for step what the machine
for sources does. Between the steps a service may read and store through the operands of the operation that
was handed over, other threads may change the memory, and a thread may be split off at the target of the
last instruction: the two machines answer alike whatever happens, for any number of such stimuli.
-/
namespace PrefixVM

inductive Stimulus where
  | step
  | load (index : Nat)
  | store (index : Nat) (value : Int64)
  /-- A service or another thread changes the memory. -/
  | share (memory : Memory)
  /-- A thread is split off at the target of the last instruction, and followed from there on. -/
  | fork

inductive Response where
  | stepped (result : Except Fault (Option Opcode))
  | loaded (result : Except Fault Int64)
  | done (result : Except Fault Unit)

/-- The answer to a stimulus that gives a new state; the old state is kept when it fails. -/
def Response.settled {σ : Type} (s : σ) : Except Fault σ → Response × σ
  | .ok s' => (.done (.ok ()), s')
  | .error fault => (.done (.error fault), s)

namespace Core

def respond (c : Core) : Stimulus → Response × Core
  | .step => (.stepped c.step.1, c.step.2)
  | .load index => (.loaded (c.machine.readArg c.memory index), c)
  | .store index value => Response.settled c (c.writeArg index value)
  | .share memory => (.done (.ok ()), { c with memory })
  | .fork => Response.settled c
      ((c.machine.fork c.machine.decoder.record.address).map fun machine => { c with machine })

def respondAll (c : Core) : List Stimulus → List Response × Core
  | [] => ([], c)
  | a :: rest =>
    let (first, c) := c.respond a
    let (others, c) := c.respondAll rest
    (first :: others, c)

end Core

namespace Asm

namespace State

def respond (items : List Item) (s : State) : Stimulus → Response × State
  | .step => (.stepped (s.step items).1, (s.step items).2)
  | .load index => (.loaded (s.readArg index), s)
  | .store index value => Response.settled s (s.writeArg index value)
  | .share memory => (.done (.ok ()), { s with memory })
  | .fork => (.done (.ok ()), s.fork items)

def respondAll (items : List Item) (s : State) : List Stimulus → List Response × State
  | [] => ([], s)
  | a :: rest =>
    let (first, s) := s.respond items a
    let (others, s) := s.respondAll items rest
    (first :: others, s)

variable {items : List Item} {s s' : State}

theorem Valid.of_eq (hv : s.Valid items) (hcounter : s'.counter = s.counter)
    (hstack : s'.stack = s.stack) (hcurrent : s'.current = s.current) : s'.Valid items where
  counter := hcounter ▸ hv.counter
  stack := hstack ▸ hv.stack
  current := hcurrent ▸ hv.current

theorem valid_store (hv : s.Valid items) {v : Int64} {o : Operand} (h : s.store v o = .ok s') :
    s'.Valid items := by
  cases o with
  | register r =>
    simp only [store] at h
    split at h
    · obtain rfl := Except.ok.inj h
      exact hv.of_eq rfl rfl rfl
    · cases h
  | memory w r =>
    obtain ⟨address, -, h⟩ := (Except.bind_eq_ok_iff _ _ _).mp h
    obtain ⟨m, -, h⟩ := (Except.bind_eq_ok_iff _ _ _).mp h
    obtain rfl := (Except.pure_eq_ok_iff _ _).mp h
    exact hv.of_eq rfl rfl rfl

theorem valid_binary (hv : s.Valid items) {f : Int64 → Int64 → Except Fault Int64} {a b c : Operand}
    (h : s.binary f a b c = .ok s') : s'.Valid items := by
  obtain ⟨x, -, h⟩ := (Except.bind_eq_ok_iff _ _ _).mp h
  obtain ⟨y, -, h⟩ := (Except.bind_eq_ok_iff _ _ _).mp h
  obtain ⟨v, -, h⟩ := (Except.bind_eq_ok_iff _ _ _).mp h
  exact valid_store hv h

theorem valid_goto (hv : s.Valid items) {k : Nat} (hk : k < (instructions items).length) :
    { s with counter := k }.Valid items :=
  ⟨Nat.le_of_lt hk, hv.stack, hv.current⟩

/-- Computing instructions stay inside the code. The instruction itself is not the last one, so that a call
returns to an instruction. -/
theorem valid_execute {code : Code} (h : Holds items code) (hv : s.Valid items) {i : Instruction}
    (hi : i ∈ instructions items) (hlt : s.counter < (instructions items).length) {here : UInt32}
    (hx : s.execute items here i = .ok s') : s'.Valid items := by
  have htarget := h.target_lt i hi
  -- the cases of `execute` in order: a store, a move, six operations on two operands, the jumps, a call
  -- and a return
  unfold execute at hx
  split at hx
  case h_1 => exact valid_store hv hx
  case h_2 =>
    obtain ⟨v, -, hx⟩ := (Except.bind_eq_ok_iff _ _ _).mp hx
    exact valid_store hv hx
  case h_9 =>
    obtain rfl := Except.ok.inj hx
    exact valid_goto hv htarget
  case h_10 =>
    obtain ⟨x, -, hx⟩ := (Except.bind_eq_ok_iff _ _ _).mp hx
    obtain ⟨y, -, hx⟩ := (Except.bind_eq_ok_iff _ _ _).mp hx
    obtain rfl := (Except.pure_eq_ok_iff _ _).mp hx
    split
    · exact valid_goto hv htarget
    · exact hv
  case h_11 =>
    split at hx
    · obtain rfl := Except.ok.inj hx
      -- the counter stands behind the call, and there is an instruction
      exact ⟨Nat.le_of_lt htarget, List.forall_mem_cons.mpr ⟨hlt, hv.stack⟩, hv.current⟩
    · cases hx
  case h_12 =>
    split at hx
    · cases hx
    · rename_i k rest hstack
      obtain rfl := Except.ok.inj hx
      have hmem := List.forall_mem_cons.mp (hstack ▸ hv.stack)
      exact ⟨Nat.le_of_lt hmem.1, hmem.2, hv.current⟩
  case h_13 =>
    obtain rfl := Except.ok.inj hx
    exact hv
  all_goals exact valid_binary hv hx

theorem valid_fetched (hv : s.Valid items) {i : Instruction}
    (hi : (instructions items)[s.counter]? = some i) : (s.fetched i).Valid items where
  counter := (List.getElem?_eq_some_iff.mp hi).1
  stack := hv.stack
  current := by
    rintro j hj
    obtain rfl := Option.some.inj hj
    exact List.mem_of_getElem? hi

theorem valid_respond {code : Code} (h : Holds items code) (hv : s.Valid items) (a : Stimulus) :
    (s.respond items a).2.Valid items := by
  cases a with
  | step =>
    change (s.step items).2.Valid items
    unfold step
    split
    · exact ⟨hv.counter, hv.stack, fun i hi => (by cases hi)⟩
    next i hi =>
      have hfetched := valid_fetched hv hi
      split
      next hop =>
        -- a computing instruction does not halt, so another one follows it
        have hne : i.opcode ≠ .halt := by
          intro heq
          rw [heq] at hop
          cases hop
        split
        next s' hs' => exact valid_execute h hfetched (List.mem_of_getElem? hi) (h.succ_lt hi hne) hs'
        next => exact hfetched
      next => exact hfetched
  | load index => exact hv
  | store index v =>
    change (Response.settled s (s.writeArg index v)).2.Valid items
    cases hw : s.writeArg index v with
    | error fault => exact hv
    | ok s' =>
      obtain ⟨o, -, hstore⟩ := (Except.bind_eq_ok_iff _ _ _).mp hw
      exact valid_store hv hstore
  | share memory => exact hv.of_eq rfl rfl rfl
  | fork =>
    refine ⟨?_, List.forall_mem_nil _, fun i hi => (by cases hi)⟩
    change s.current.elim 0 (Instruction.targetIndex items) ≤ _
    cases hs : s.current with
    | none => exact Nat.zero_le _
    | some i => exact Nat.le_of_lt (h.target_lt i (hv.current i hs))

end State

section Steps

variable {items : List Item} {code : Code} {s : State}

theorem decode_run (h : Holds items code) {i : Instruction}
    (hi : (instructions items)[s.counter]? = some i) :
    (Exec.decode Reading.instruction).run (s.lower items code) =
      .ok i.opcode ((s.fetched i).lower items code) := by
  simp only [Exec.decode, EStateM.run]
  rw [show Reading.instruction (s.lower items code).machine.decoder = _ from h.instruction_run s hi]
  rfl

theorem decode_run_end (h : Holds items code) (hs : (instructions items).length ≤ s.counter) :
    (Exec.decode Reading.instruction).run (s.lower items code) =
      .ok .padding ({ s with current := none }.lower items code) := by
  simp only [Exec.decode, EStateM.run]
  rw [show Reading.instruction (s.lower items code).machine.decoder = _ from h.instruction_run_end s hs]
  rfl

/-- One step of the image machine is one step of the source machine. -/
theorem step_lower (h : Holds items code) (hv : s.Valid items) :
    (s.lower items code).step = ((s.step items).1, (s.step items).2.lower items code) := by
  rw [Core.step, Exec.step, run_bind, here_run items code s h]
  unfold State.step
  cases hi : (instructions items)[s.counter]? with
  | none =>
    have hs := List.getElem?_eq_none_iff.mp hi
    simp only [run_bind, decode_run_end h hs]
    rfl
  | some i =>
    simp only [run_bind, decode_run h hi]
    by_cases hop : i.opcode.isComputational = true
    · have hrun := compute_run items code (s.fetched i) h (State.valid_fetched hv hi)
        (UInt32.ofNat (offset (instructions items) s.counter)) rfl hop
      simp only [hop, if_true, run_bind, hrun]
      cases (s.fetched i).execute items (UInt32.ofNat (offset (instructions items) s.counter)) i <;> rfl
    · simp only [hop]
      rfl

theorem run_lower (h : Holds items code) (hv : s.Valid items) (fuel : Nat) :
    (s.lower items code).run fuel =
      (s.run items fuel).map fun r => (r.1, r.2.lower items code) := by
  induction fuel generalizing s with
  | zero => rfl
  | succ fuel ih =>
    have hnext : (s.step items).2.Valid items := State.valid_respond h hv .step
    rw [Core.run, State.run, step_lower h hv]
    generalize s.step items = r at hnext
    match r with
    | (.ok none, s') => exact ih hnext
    | (.ok (some op), s') => rfl
    | (.error fault, s') => rfl

theorem valid_run (h : Holds items code) (hv : s.Valid items) (fuel : Nat)
    {r : Except Fault Opcode × State} (hr : s.run items fuel = some r) : r.2.Valid items := by
  induction fuel generalizing s with
  | zero => cases hr
  | succ fuel ih =>
    have hnext : (s.step items).2.Valid items := State.valid_respond h hv .step
    rw [State.run] at hr
    generalize s.step items = r' at hnext hr
    match r' with
    | (.ok none, s') => exact ih hnext hr
    | (.ok (some op), s') =>
      obtain rfl := Option.some.inj hr
      exact hnext
    | (.error fault, s') =>
      obtain rfl := Option.some.inj hr
      exact hnext

theorem record_address (h : Holds items code) (hv : s.Valid items) :
    (s.record items).address = UInt32.ofNat (offset (instructions items) (s.fork items).counter) := by
  change _ = UInt32.ofNat (offset _ (s.current.elim 0 (Instruction.targetIndex items)))
  cases hs : s.current with
  | none =>
    rw [State.record, hs]
    rfl
  | some i =>
    rw [State.record, hs]
    cases hop : i.opcode.hasAddress with
    | true => simp only [hop, if_true, Option.elim_some]
    | false =>
      -- without an address both are zero
      have htarget := (h.wellFormed i (hv.current i hs)).target
      rw [hop, Option.isSome_eq_false_iff, Option.isNone_iff_eq_none] at htarget
      simp only [hop, Bool.false_eq_true, if_false, Option.elim_some, Instruction.targetIndex, htarget]
      rfl

theorem fork_counter_lt (h : Holds items code) (hv : s.Valid items) :
    (s.fork items).counter < (instructions items).length := by
  change s.current.elim 0 (Instruction.targetIndex items) < _
  cases hs : s.current with
  | none => exact h.length_pos
  | some i => exact h.target_lt i (hv.current i hs)

/-- A new thread starts at the instruction that the last one leads to. -/
theorem fork_lower (h : Holds items code) (hv : s.Valid items) :
    (s.lower items code).machine.fork (s.record items).address =
      .ok ((s.fork items).lower items code).machine := by
  have hlt := h.offset_lt_length (fork_counter_lt h hv)
  have hjump : Decoder.startAt code (s.record items).address =
      .ok ((s.fork items).lower items code).machine.decoder := by
    rw [Decoder.startAt, Decoder.jump, record_address h hv, h.toNat_offset, if_pos (by exact hlt)]
    rfl
  rw [Machine.fork, show Decoder.startAt (s.lower items code).machine.decoder.code _ = _ from hjump]
  rfl

theorem respond_lower (h : Holds items code) (hv : s.Valid items) (a : Stimulus) :
    (s.lower items code).respond a = ((s.respond items a).1, (s.respond items a).2.lower items code) := by
  cases a with
  | step => rw [Core.respond, step_lower h hv, State.respond]
  | load index => rw [Core.respond, readArg_lower, State.respond]
  | store index v =>
    rw [Core.respond, writeArg_lower, State.respond]
    cases s.writeArg index v <;> rfl
  | share memory => rfl
  | fork =>
    have hfork := fork_lower h hv
    change Response.settled _ (((s.lower items code).machine.fork (s.record items).address).map _) = _
    rw [hfork]
    rfl

/-- Both machines answer a sequence of stimuli alike. -/
theorem respondAll_lower (h : Holds items code) (hv : s.Valid items) (stimuli : List Stimulus) :
    (s.lower items code).respondAll stimuli =
        ((s.respondAll items stimuli).1, (s.respondAll items stimuli).2.lower items code) ∧
      (s.respondAll items stimuli).2.Valid items := by
  induction stimuli generalizing s with
  | nil => exact ⟨rfl, hv⟩
  | cons a rest ih =>
    obtain ⟨hrest, hvalid⟩ := ih (State.valid_respond h hv a)
    refine ⟨?_, hvalid⟩
    simp only [Core.respondAll, State.respondAll, respond_lower h hv a, hrest]

end Steps

end Asm

end PrefixVM
