import PrefixVM.Proofs.Destinations
import PrefixVM.Proofs.Effects

/-!
What a failed instruction leaves behind. Operands are read before anything is stored, and a store is checked
as a whole before its first byte, so registers and memory are those before the instruction. Return addresses
are as well, with two exceptions: a call has already remembered where it comes from when its target turns out
to lie outside the code, and a return has already used up an address that lies outside.
-/
namespace PrefixVM

namespace Exec

/-- A computation that fails leaves the state as it was. -/
def RollsBack {α : Type} (x : Exec α) (c : Core) : Prop :=
  ∀ fault c', x.run c = .error fault c' → c' = c

variable {c c' : Core} {fault : Fault}

theorem arg_bind_rollsBack {β : Type} {index : Nat} {f : Int64 → Exec β}
    (hf : ∀ v, RollsBack (f v) c) : RollsBack (arg index >>= f) c := by
  intro fault c' h
  have hrun := arg_run c index
  cases hread : c.machine.readArg c.memory index with
  | ok v =>
    rw [hread] at hrun
    rw [EStateM.run_bind_of_ok hrun] at h
    exact hf v fault c' h
  | error cause =>
    rw [hread] at hrun
    rw [EStateM.run_bind_of_error hrun] at h
    cases h
    rfl

theorem setArg_rollsBack (index : Nat) (v : Int64) : RollsBack (setArg index v) c := by
  intro fault c' h
  rw [setArg_run] at h
  split at h
  next => cases h
  next =>
    cases h
    rfl

theorem jump_rollsBack (target : UInt32) : RollsBack (jump target) c :=
  fun _ _ h => (jump_run_eq_error h).2

theorem jump_target_rollsBack : RollsBack (target >>= jump) c :=
  jump_rollsBack c.machine.decoder.record.address

theorem binary_rollsBack (f : Int64 → Int64 → Except Fault Int64) : RollsBack (binary f) c := by
  apply arg_bind_rollsBack
  intro a
  apply arg_bind_rollsBack
  intro b
  split
  next v _ => exact setArg_rollsBack 2 v
  next =>
    intro fault c' h
    cases h
    rfl

/-- Apart from calls and returns, an instruction that fails has not changed anything since it was read. -/
theorem compute_rollsBack {op : Opcode} (hcall : op ≠ .call) (hret : op ≠ .ret) (address : UInt32) :
    RollsBack (compute address op) c := by
  by_cases hsink : op.sink? = some 2
  · rw [compute_eq_binary address hsink]
    exact binary_rollsBack _
  · -- a constant, a move, six operations on two operands, the jumps, a call, a return, and the rest
    unfold compute
    split
    case h_1 => exact setArg_rollsBack 0 c.machine.decoder.record.constant
    case h_2 => exact arg_bind_rollsBack fun v => setArg_rollsBack 1 v
    case h_9 => exact jump_target_rollsBack
    case h_10 =>
      apply arg_bind_rollsBack
      intro a
      apply arg_bind_rollsBack
      intro b
      split
      next => exact jump_target_rollsBack
      next =>
        intro fault c' h
        cases h
    case h_11 => exact absurd rfl hcall
    case h_12 => exact absurd rfl hret
    case h_13 =>
      intro fault c' h
      cases h
    all_goals exact absurd rfl hsink

theorem call_run_eq (address : UInt32) (c : Core) :
    (call address).run c =
      if c.machine.stack.length < Machine.maxDepth then
        match c.machine.decoder.address with
        | .ok back =>
          (jump c.machine.decoder.record.address).run
            (c.moveTo c.machine.decoder (back :: c.machine.stack))
        | .error cause => .error (.decode cause) c
      else .error (.stackOverflow address) c := by
  rw [call_run]
  split
  · have hhere := here_run c
    cases haddress : c.machine.decoder.address with
    | ok back =>
      rw [haddress] at hhere
      rw [EStateM.run_bind_of_ok hhere]
      rfl
    | error cause =>
      rw [haddress] at hhere
      rw [EStateM.run_bind_of_error hhere]
  · rfl

theorem ret_run_nil (address : UInt32) (hstack : c.machine.stack = []) :
    (ret address).run c = .error (.stackUnderflow address) c := by
  rw [ret, EStateM.run_get_bind, hstack]
  rfl

end Exec

namespace Core

variable {c c' : Core} {fault : Fault}

/-- A step that comes to a computing instruction carries it out from behind it. -/
theorem step_of_startsWith {op : Opcode} {o : Operands} (hcursor : c.machine.decoder.cursor < UInt32.size)
    (hstart : c.machine.decoder.rest.StartsWith op o) (hop : op.isComputational = true) :
    c.step = match (Exec.compute (UInt32.ofNat c.machine.decoder.cursor) op).run
        (c.past o (Bits.ofInstruction op o).length) with
      | .ok _ c' => (.ok none, c')
      | .error fault c' => (.error fault, c') := by
  have haddress : c.machine.decoder.address = .ok (UInt32.ofNat c.machine.decoder.cursor) :=
    if_pos hcursor
  have hhere := (Exec.here_run_eq_ok c c _).mpr ⟨haddress, rfl⟩
  have hread : (Exec.decode Reading.instruction).run c =
      .ok op (c.past o (Bits.ofInstruction op o).length) :=
    (Exec.instruction_run_eq_ok c _ op).mpr
      ⟨_, (fetched?_eq_some_iff (Opcode.ne_padding hop)).mpr ⟨o, hstart, rfl⟩, rfl⟩
  rw [Core.step, Exec.step, EStateM.run_bind_of_ok hhere, EStateM.run_bind_of_ok hread, if_pos hop]
  cases hrun : (Exec.compute (UInt32.ofNat c.machine.decoder.cursor) op).run
      (c.past o (Bits.ofInstruction op o).length) with
  | ok _ c' =>
    rw [EStateM.run_bind_of_ok hrun]
    rfl
  | error fault c' => rw [EStateM.run_bind_of_error hrun]

/-- A step fails because the cursor is no address any more, because there is no complete instruction to read,
or in the course of an instruction. -/
theorem step_eq_error_cases (h : c.step = (.error fault, c')) :
    (fault = .decode (.addressOverflow c.machine.decoder.cursor) ∧ c' = c) ∨
    ((∀ op o, ¬ c.machine.decoder.rest.StartsWith op o) ∧
      ∃ d, c' = c.moveTo d c.machine.stack) ∨
    ∃ op o, c.machine.decoder.rest.StartsWith op o ∧
      (Exec.compute (UInt32.ofNat c.machine.decoder.cursor) op).run
        (c.past o (Bits.ofInstruction op o).length) = .error fault c' := by
  by_cases hcursor : c.machine.decoder.cursor < UInt32.size
  · right
    have haddress : c.machine.decoder.address = .ok (UInt32.ofNat c.machine.decoder.cursor) :=
      if_pos hcursor
    have hhere := (Exec.here_run_eq_ok c c _).mpr ⟨haddress, rfl⟩
    have hdecode := Exec.decode_run Reading.instruction c
    cases hrun : Reading.instruction.run c.machine.decoder with
    | error cause d =>
      left
      rw [hrun] at hdecode
      rw [Core.step, Exec.step, EStateM.run_bind_of_ok hhere, EStateM.run_bind_of_error hdecode] at h
      refine ⟨?_, d, (congrArg Prod.snd h).symm⟩
      intro op o hstart
      have hfetch := (Decoder.fetch_eq_iff _ _ _).mp (Decoder.fetch_of_startsWith hstart)
      rw [hrun] at hfetch
      cases hfetch
    | ok op d =>
      right
      rw [hrun] at hdecode
      by_cases hop : op.isComputational = true
      · have hfetched : c.machine.fetched? = some (op, { c.machine with decoder := d }) :=
          Machine.fetched?_eq_some_iff.mpr ⟨d, hrun, rfl⟩
        obtain ⟨o, hstart, -⟩ := (fetched?_eq_some_iff (Opcode.ne_padding hop)).mp hfetched
        refine ⟨op, o, hstart, ?_⟩
        rw [step_of_startsWith hcursor hstart hop] at h
        split at h
        next => cases h
        next hcompute =>
          cases h
          exact hcompute
      · rw [Core.step, Exec.step, EStateM.run_bind_of_ok hhere, EStateM.run_bind_of_ok hdecode,
          if_neg hop] at h
        cases h
  · left
    have haddress : c.machine.decoder.address = .error (.addressOverflow c.machine.decoder.cursor) :=
      if_neg hcursor
    have hhere := Exec.here_run c
    rw [haddress] at hhere
    rw [Core.step, Exec.step, EStateM.run_bind_of_error hhere] at h
    cases h
    exact ⟨rfl, rfl⟩

/-- The instruction at the cursor has the given operation, and has failed since it leads out of the code. -/
def Astray (c : Core) (op : Opcode) (fault : Fault) : Prop :=
  (∃ o, c.machine.decoder.rest.StartsWith op o) ∧
    ∃ target limit, fault = .decode (.jumpOutOfRange target limit)

/-- The return addresses that a failed instruction leaves: those before it, unless a call or a return leads
out of the code. -/
inductive StackLeft (c : Core) (fault : Fault) : List UInt32 → Prop where
  | kept (hcall : ¬ c.Astray .call fault) (hret : ¬ c.Astray .ret fault) :
      StackLeft c fault c.machine.stack
  | pushed {o : Operands} {back : UInt32} (hstart : c.machine.decoder.rest.StartsWith .call o)
      (hback : back.toNat = c.machine.decoder.cursor + (Bits.ofInstruction .call o).length)
      (hdepth : c.machine.stack.length < Machine.maxDepth)
      (hfault : fault = .decode (.jumpOutOfRange o.address c.machine.decoder.code.length)) :
      StackLeft c fault (back :: c.machine.stack)
  | popped {o : Operands} {top : UInt32} {rest : List UInt32}
      (hstart : c.machine.decoder.rest.StartsWith .ret o) (hstack : c.machine.stack = top :: rest)
      (hfault : fault = .decode (.jumpOutOfRange top c.machine.decoder.code.length)) :
      StackLeft c fault rest

/-- What a failed instruction leaves of the state before it. -/
structure LeftBy (c : Core) (fault : Fault) (c' : Core) : Prop where
  registers : c'.machine.registers = c.machine.registers
  memory : c'.memory = c.memory
  stack : c.StackLeft fault c'.machine.stack

/-- There is one instruction at the cursor, so a call is no return, and so on. -/
theorem not_astray {op op' : Opcode} {o : Operands} (hstart : c.machine.decoder.rest.StartsWith op o)
    (hne : op ≠ op') : ¬ c.Astray op' fault := by
  rintro ⟨⟨o', hstart'⟩, -⟩
  exact hne (Decoder.startsWith_unique hstart hstart').1.symm

theorem not_astray_of_fault {op : Opcode}
    (h : ∀ target limit, fault ≠ .decode (.jumpOutOfRange target limit)) : ¬ c.Astray op fault := by
  rintro ⟨-, target, limit, heq⟩
  exact h target limit heq

theorem leftBy_call {o : Operands} {address : UInt32}
    (hstart : c.machine.decoder.rest.StartsWith .call o)
    (h : (Exec.call address).run (c.past o (Bits.ofInstruction .call o).length) = .error fault c') :
    c.LeftBy fault c' := by
  have hother : ¬ c.Astray .ret fault := not_astray hstart (by decide)
  rw [Exec.call_run_eq] at h
  split at h
  next hdepth =>
    split at h
    next back haddress =>
      -- the address is remembered before the jump is tried
      obtain ⟨hfault, rfl⟩ := Exec.jump_run_eq_error h
      exact ⟨rfl, rfl, .pushed hstart (Decoder.address_eq_ok_iff.mp haddress) hdepth hfault⟩
    next cause haddress =>
      cases h
      refine ⟨rfl, rfl, .kept (not_astray_of_fault ?_) hother⟩
      rw [Decoder.address_eq_error haddress]
      simp
  next =>
    cases h
    exact ⟨rfl, rfl, .kept (not_astray_of_fault (by simp)) hother⟩

theorem leftBy_ret {o : Operands} {address : UInt32}
    (hstart : c.machine.decoder.rest.StartsWith .ret o)
    (h : (Exec.ret address).run (c.past o (Bits.ofInstruction .ret o).length) = .error fault c') :
    c.LeftBy fault c' := by
  have hother : ¬ c.Astray .call fault := not_astray hstart (by decide)
  have hpast : (c.past o (Bits.ofInstruction .ret o).length).machine.stack = c.machine.stack := rfl
  cases hstack : c.machine.stack with
  | nil =>
    rw [Exec.ret_run_nil address (hpast.trans hstack)] at h
    cases h
    exact ⟨rfl, rfl, .kept hother (not_astray_of_fault (by simp))⟩
  | cons top rest =>
    -- the address is used up before the jump is tried
    rw [Exec.ret_run_of_stack (hpast.trans hstack)] at h
    obtain ⟨hfault, rfl⟩ := Exec.jump_run_eq_error h
    exact ⟨rfl, rfl, .popped hstart hstack hfault⟩

theorem leftBy_of_step (h : c.step = (.error fault, c')) : c.LeftBy fault c' := by
  rcases step_eq_error_cases h with ⟨rfl, rfl⟩ | ⟨hnone, d, rfl⟩ | ⟨op, o, hstart, hrun⟩
  · exact ⟨rfl, rfl, .kept (not_astray_of_fault (by simp)) (not_astray_of_fault (by simp))⟩
  · have hastray (op : Opcode) : ¬ c.Astray op fault := by
      rintro ⟨⟨o, hstart⟩, -⟩
      exact hnone op o hstart
    exact ⟨rfl, rfl, .kept (hastray .call) (hastray .ret)⟩
  · by_cases hcall : op = .call
    · subst hcall
      exact leftBy_call hstart hrun
    · by_cases hret : op = .ret
      · subst hret
        exact leftBy_ret hstart hrun
      · obtain rfl := Exec.compute_rollsBack hcall hret _ fault c' hrun
        exact ⟨rfl, rfl, .kept (not_astray hstart hcall) (not_astray hstart hret)⟩

/-- A run that fails has completed some instructions, and the next one has left registers, memory and return
addresses as they were, apart from a call or a return that leads out of the code. -/
theorem leftBy_of_run {fuel : Nat} (h : c.run fuel = some (.error fault, c')) :
    ∃ n c₁, c.computed? n = some c₁ ∧ c₁.step = (.error fault, c') ∧ c₁.LeftBy fault c' := by
  induction fuel generalizing c with
  | zero => cases h
  | succ fuel ih =>
    rw [run] at h
    split at h
    next c₁ hstep =>
      obtain ⟨n, c₂, hcomputed, hfail, hleft⟩ := ih h
      refine ⟨n + 1, c₂, ?_, hfail, hleft⟩
      rw [computed?, hstep]
      exact hcomputed
    next => cases h
    next fault' c₁ hstep =>
      cases h
      exact ⟨0, c, rfl, hstep, leftBy_of_step hstep⟩

/-- A machine in front of `loadConst 7, r1` and `call 4096`; its code has 112 bits. -/
def callAstray : Core where
  machine := Machine.start
    (Image.make [60, 0, 0, 0, 0, 0, 0, 0, 8, 192, 0, 128, 0, 0] [] 0).machineCode
  memory := Memory.zeros 0

/-- The call leaves the address behind it, 108, among the return addresses. -/
theorem leftBy_of_run_callAstray :
    let c' := callAstray.step.2.step.2
    let fault : Fault := .decode (.jumpOutOfRange 4096 112)
    callAstray.run 2 = some (.error fault, c') ∧ c'.machine.stack = [108] ∧
      ∃ n c₁, callAstray.computed? n = some c₁ ∧ c₁.step = (.error fault, c') ∧
        c₁.LeftBy fault c' := by
  intro c' fault
  have hfirst : callAstray.step = (.ok none, callAstray.step.2) := rfl
  have hsecond : callAstray.step.2.step = (.error fault, c') := rfl
  have hrun : callAstray.run 2 = some (.error fault, c') :=
    calc callAstray.run 2 = callAstray.step.2.run 1 := by rw [run, hfirst]
      _ = some (.error fault, c') := by rw [run, hsecond]
  exact ⟨hrun, rfl, leftBy_of_run hrun⟩

end Core

end PrefixVM
