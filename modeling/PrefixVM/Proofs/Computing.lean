import PrefixVM.Machine
import PrefixVM.Proofs.Readers

/-!
Computing instructions, one at a time. `Core.Computes` holds the rules of those that complete, and a
step of a machine completes an instruction exactly by one of them, so that other proofs argue by the rules
and do not open the instructions.
-/
namespace PrefixVM

namespace Opcode

/-- The operands that a computing operation reads. -/
def sources : Opcode → List Nat
  | mov => [0]
  | add | sub | mul | div | mod | compare | jumpEqual => [0, 1]
  | _ => []

/-- The operand that a computing operation stores its result through. -/
def sink? : Opcode → Option Nat
  | loadConst => some 0
  | mov => some 1
  | add | sub | mul | div | mod | compare => some 2
  | _ => none

/-- The result of an operation on two numbers. There is none for a division by zero, and for an operation
that does not combine two numbers. -/
def combine? : Opcode → Int64 → Int64 → Option Int64
  | add, a, b => some (a + b)
  | sub, a, b => some (a - b)
  | mul, a, b => some (a * b)
  | div, a, b => if b = 0 then none else some (a / b)
  | mod, a, b => if b = 0 then none else some (a % b)
  | compare, a, b => some (Exec.order a b)
  | _, _, _ => none

theorem sink?_of_combine? {op : Opcode} {a b v : Int64} (h : op.combine? a b = some v) :
    op.sink? = some 2 := by
  cases op <;> first | rfl | cases h

end Opcode

namespace Core

/-- The machine goes on at another place, with other open calls. -/
def moveTo (c : Core) (decoder : Decoder) (stack : List UInt32) : Core :=
  { c with machine := { c.machine with decoder, stack } }

@[simp] theorem moveTo_memory (c : Core) (decoder : Decoder) (stack : List UInt32) :
    (c.moveTo decoder stack).memory = c.memory := rfl

/-- The rules of the computing instructions: what one that has just been fetched makes of a machine and its
memory. All operands and places are those of the state before it. -/
inductive Computes (c : Core) : Opcode → Core → Prop where
  | load {d : Destination} (hd : c.machine.destination c.memory 0 = .ok d) :
      Computes c .loadConst (c.put c.machine.decoder.record.constant d)
  | move {v : Int64} {d : Destination} (hv : c.machine.readArg c.memory 0 = .ok v)
      (hd : c.machine.destination c.memory 1 = .ok d) : Computes c .mov (c.put v d)
  | combine {op : Opcode} {a b v : Int64} {d : Destination}
      (ha : c.machine.readArg c.memory 0 = .ok a) (hb : c.machine.readArg c.memory 1 = .ok b)
      (hv : op.combine? a b = some v) (hd : c.machine.destination c.memory 2 = .ok d) :
      Computes c op (c.put v d)
  | jump {d : Decoder} (hd : c.machine.decoder.jump c.machine.decoder.record.address = .ok d) :
      Computes c .jump (c.moveTo d c.machine.stack)
  | branch {a : Int64} {d : Decoder} (ha : c.machine.readArg c.memory 0 = .ok a)
      (hb : c.machine.readArg c.memory 1 = .ok a)
      (hd : c.machine.decoder.jump c.machine.decoder.record.address = .ok d) :
      Computes c .jumpEqual (c.moveTo d c.machine.stack)
  | fall {a b : Int64} (ha : c.machine.readArg c.memory 0 = .ok a)
      (hb : c.machine.readArg c.memory 1 = .ok b) (hab : a ≠ b) : Computes c .jumpEqual c
  | call {next : UInt32} {d : Decoder} (hdepth : c.machine.stack.length < Machine.maxDepth)
      (hnext : c.machine.decoder.address = .ok next)
      (hd : c.machine.decoder.jump c.machine.decoder.record.address = .ok d) :
      Computes c .call (c.moveTo d (next :: c.machine.stack))
  | ret {top : UInt32} {rest : List UInt32} {d : Decoder} (hstack : c.machine.stack = top :: rest)
      (hd : c.machine.decoder.jump top = .ok d) : Computes c .ret (c.moveTo d rest)

end Core

namespace Exec

variable (c c' : Core)

theorem arg_run (index : Nat) :
    (arg index).run c = match c.machine.readArg c.memory index with
      | .ok v => .ok v c
      | .error fault => .error fault c := by
  rw [arg, EStateM.run_get_bind]
  cases c.machine.readArg c.memory index <;> rfl

theorem setArg_run (index : Nat) (v : Int64) :
    (setArg index v).run c = match c.machine.destination c.memory index with
      | .ok d => .ok () (c.put v d)
      | .error fault => .error fault c := by
  rw [setArg, EStateM.run_get_bind]
  cases c.machine.destination c.memory index <;> rfl

theorem jump_run (target : UInt32) :
    (jump target).run c = match c.machine.decoder.jump target with
      | .ok d => .ok () (c.moveTo d c.machine.stack)
      | .error cause => .error (.decode cause) c := by
  rw [jump, EStateM.run_get_bind]
  cases c.machine.decoder.jump target <;> rfl

theorem here_run :
    here.run c = match c.machine.decoder.address with
      | .ok address => .ok address c
      | .error cause => .error (.decode cause) c := by
  rw [here, EStateM.run_get_bind]
  cases c.machine.decoder.address <;> rfl

theorem arg_run_eq_ok (index : Nat) (v : Int64) :
    (arg index).run c = .ok v c' ↔ c.machine.readArg c.memory index = .ok v ∧ c' = c := by
  rw [arg_run]
  cases c.machine.readArg c.memory index <;> simp [eq_comm]

theorem setArg_run_eq_ok (index : Nat) (v : Int64) :
    (setArg index v).run c = .ok () c' ↔
      ∃ d, c.machine.destination c.memory index = .ok d ∧ c' = c.put v d := by
  rw [setArg_run]
  cases c.machine.destination c.memory index <;> simp [eq_comm]

theorem jump_run_eq_ok (target : UInt32) :
    (jump target).run c = .ok () c' ↔
      ∃ d, c.machine.decoder.jump target = .ok d ∧ c' = c.moveTo d c.machine.stack := by
  rw [jump_run]
  cases c.machine.decoder.jump target <;> simp [eq_comm]

theorem here_run_eq_ok (address : UInt32) :
    here.run c = .ok address c' ↔ c.machine.decoder.address = .ok address ∧ c' = c := by
  rw [here_run]
  cases c.machine.decoder.address <;> simp [eq_comm]

/-- What follows an operand that was read goes on from the same state. -/
theorem arg_bind_run_eq_ok {β : Type} (index : Nat) (f : Int64 → Exec β) (b : β) :
    (arg index >>= f).run c = .ok b c' ↔
      ∃ v, c.machine.readArg c.memory index = .ok v ∧ (f v).run c = .ok b c' := by
  simp only [EStateM.run_bind_eq_ok, arg_run_eq_ok, and_assoc, exists_and_left, exists_eq_left]

theorem compute_eq_binary (address : UInt32) {op : Opcode} (hop : op.sink? = some 2) :
    compute address op = binary fun a b => match op.combine? a b with
      | some v => .ok v
      | none => .error (.divisionByZero address) := by
  cases op <;> simp only [Opcode.sink?, reduceCtorEq, Option.some.injEq, Nat.reduceEqDiff] at hop
  all_goals simp only [compute, Opcode.combine?]
  -- only divisions are left, whose result depends on the divisor
  all_goals
    congr 1
    funext a b
    split <;> rfl

theorem binary_run_eq_ok (f : Int64 → Int64 → Except Fault Int64) :
    (binary f).run c = .ok () c' ↔
      ∃ a b v d, c.machine.readArg c.memory 0 = .ok a ∧ c.machine.readArg c.memory 1 = .ok b ∧
        f a b = .ok v ∧ c.machine.destination c.memory 2 = .ok d ∧ c' = c.put v d := by
  rw [binary, arg_bind_run_eq_ok]
  simp only [arg_bind_run_eq_ok]
  constructor
  · rintro ⟨a, ha, b, hb, h⟩
    split at h
    next v hv =>
      obtain ⟨d, hd, rfl⟩ := (setArg_run_eq_ok c c' 2 v).mp h
      exact ⟨a, b, v, d, ha, hb, hv, hd, rfl⟩
    next => cases h
  · rintro ⟨a, b, v, d, ha, hb, hv, hd, rfl⟩
    refine ⟨a, ha, b, hb, ?_⟩
    rw [hv]
    exact (setArg_run_eq_ok c _ 2 v).mpr ⟨d, hd, rfl⟩

theorem jump_target_run_eq_ok :
    (target >>= jump).run c = .ok () c' ↔
      ∃ d, c.machine.decoder.jump c.machine.decoder.record.address = .ok d ∧
        c' = c.moveTo d c.machine.stack :=
  jump_run_eq_ok c c' c.machine.decoder.record.address

theorem call_run (address : UInt32) :
    (call address).run c =
      (if c.machine.stack.length < Machine.maxDepth then do
        setStack ((← here) :: c.machine.stack)
        jump (← target)
      else throw (.stackOverflow address) : Exec Unit).run c := rfl

theorem call_run_eq_ok (address : UInt32) :
    (call address).run c = .ok () c' ↔
      ∃ next d, c.machine.stack.length < Machine.maxDepth ∧
        c.machine.decoder.address = .ok next ∧
        c.machine.decoder.jump c.machine.decoder.record.address = .ok d ∧
        c' = c.moveTo d (next :: c.machine.stack) := by
  rw [call_run]
  by_cases hdepth : c.machine.stack.length < Machine.maxDepth
  · simp only [if_pos hdepth, EStateM.run_bind_eq_ok, here_run_eq_ok]
    constructor
    · rintro ⟨next, c₁, ⟨hnext, rfl⟩, u, c₂, hset, h⟩
      obtain ⟨-, rfl⟩ := EStateM.Result.ok.inj hset
      obtain ⟨d, hd, rfl⟩ := (jump_target_run_eq_ok _ _).mp ((EStateM.run_bind_eq_ok _ _ _ _ _).mpr h)
      exact ⟨next, d, hdepth, hnext, hd, rfl⟩
    · rintro ⟨next, d, -, hnext, hd, rfl⟩
      refine ⟨next, c, ⟨hnext, rfl⟩, (), _, rfl, ?_⟩
      exact (EStateM.run_bind_eq_ok _ _ _ _ _).mp ((jump_target_run_eq_ok _ _).mpr ⟨d, hd, rfl⟩)
  · simp only [hdepth, false_and, exists_false, iff_false]
    intro h
    cases h

theorem ret_run_eq_ok (address : UInt32) :
    (ret address).run c = .ok () c' ↔
      ∃ top rest d, c.machine.stack = top :: rest ∧ c.machine.decoder.jump top = .ok d ∧
        c' = c.moveTo d rest := by
  rw [ret, EStateM.run_get_bind]
  cases c.machine.stack with
  | nil =>
    simp only [reduceCtorEq, false_and, exists_false, iff_false]
    intro h
    cases h
  | cons top rest =>
    simp only [List.cons.injEq, EStateM.run_bind_eq_ok]
    constructor
    · rintro ⟨u, c₁, hset, h⟩
      obtain ⟨-, rfl⟩ := EStateM.Result.ok.inj hset
      obtain ⟨d, hd, rfl⟩ := (jump_run_eq_ok _ _ top).mp h
      exact ⟨top, rest, d, ⟨rfl, rfl⟩, hd, rfl⟩
    · rintro ⟨_, _, d, ⟨rfl, rfl⟩, hd, rfl⟩
      exact ⟨(), _, rfl, (jump_run_eq_ok _ _ _).mpr ⟨d, hd, rfl⟩⟩

theorem computes_of_compute {c c' : Core} {address : UInt32} {op : Opcode}
    (hop : op.isComputational = true) (h : (compute address op).run c = .ok () c') :
    c.Computes op c' := by
  by_cases hsink : op.sink? = some 2
  · rw [compute_eq_binary address hsink] at h
    obtain ⟨a, b, v, d, ha, hb, hv, hd, rfl⟩ := (binary_run_eq_ok c c' _).mp h
    split at hv
    next w hw =>
      cases hv
      exact .combine ha hb hw hd
    next => cases hv
  · match op, hop, hsink with
    | .loadConst, _, _ =>
      obtain ⟨d, hd, rfl⟩ := (setArg_run_eq_ok c c' 0 _).mp h
      exact .load hd
    | .mov, _, _ =>
      obtain ⟨v, hv, h⟩ := (arg_bind_run_eq_ok c c' 0 (setArg 1) ()).mp h
      obtain ⟨d, hd, rfl⟩ := (setArg_run_eq_ok c c' 1 v).mp h
      exact .move hv hd
    | .jump, _, _ =>
      obtain ⟨d, hd, rfl⟩ := (jump_target_run_eq_ok c c').mp h
      exact .jump hd
    | .jumpEqual, _, _ =>
      obtain ⟨a, ha, h⟩ := (arg_bind_run_eq_ok c c' 0 _ ()).mp h
      obtain ⟨b, hb, h⟩ := (arg_bind_run_eq_ok c c' 1 _ ()).mp h
      by_cases hab : a = b
      · rw [if_pos hab] at h
        obtain ⟨d, hd, rfl⟩ := (jump_target_run_eq_ok c c').mp h
        exact .branch ha (hab ▸ hb) hd
      · rw [if_neg hab] at h
        obtain ⟨-, rfl⟩ := EStateM.Result.ok.inj h
        exact .fall ha hb hab
    | .call, _, _ =>
      obtain ⟨next, d, hdepth, hnext, hd, rfl⟩ := (call_run_eq_ok c c' address).mp h
      exact .call hdepth hnext hd
    | .ret, _, _ =>
      obtain ⟨top, rest, d, hstack, hd, rfl⟩ := (ret_run_eq_ok c c' address).mp h
      exact .ret hstack hd

theorem compute_of_computes {c c' : Core} {op : Opcode} (h : c.Computes op c') (address : UInt32) :
    (compute address op).run c = .ok () c' := by
  cases h with
  | load hd => exact (setArg_run_eq_ok c _ 0 _).mpr ⟨_, hd, rfl⟩
  | move hv hd =>
    apply (arg_bind_run_eq_ok c _ 0 (setArg 1) ()).mpr
    exact ⟨_, hv, (setArg_run_eq_ok c _ 1 _).mpr ⟨_, hd, rfl⟩⟩
  | combine ha hb hv hd =>
    rw [compute_eq_binary address (Opcode.sink?_of_combine? hv), binary_run_eq_ok]
    exact ⟨_, _, _, _, ha, hb, by rw [hv], hd, rfl⟩
  | jump hd => exact (jump_target_run_eq_ok c _).mpr ⟨_, hd, rfl⟩
  | branch ha hb hd =>
    apply (arg_bind_run_eq_ok c _ 0 _ ()).mpr
    refine ⟨_, ha, (arg_bind_run_eq_ok c _ 1 _ ()).mpr ⟨_, hb, ?_⟩⟩
    rw [if_pos rfl]
    exact (jump_target_run_eq_ok c _).mpr ⟨_, hd, rfl⟩
  | fall ha hb hab =>
    apply (arg_bind_run_eq_ok c _ 0 _ ()).mpr
    refine ⟨_, ha, (arg_bind_run_eq_ok c _ 1 _ ()).mpr ⟨_, hb, ?_⟩⟩
    rw [if_neg hab]
    rfl
  | call hdepth hnext hd => exact (call_run_eq_ok c _ address).mpr ⟨_, _, hdepth, hnext, hd, rfl⟩
  | ret hstack hd => exact (ret_run_eq_ok c _ address).mpr ⟨_, _, _, hstack, hd, rfl⟩

/-- A computing instruction completes exactly by the rules. -/
theorem compute_run_eq_ok_iff (address : UInt32) {op : Opcode} (hop : op.isComputational = true) :
    (compute address op).run c = .ok () c' ↔ c.Computes op c' :=
  ⟨computes_of_compute hop, fun h => compute_of_computes h address⟩

end Exec

namespace Machine

/-- The machine that has just fetched its next instruction, with the operation. -/
def fetched? (m : Machine) : Option (Opcode × Machine) :=
  match Reading.instruction.run m.decoder with
  | .ok op decoder => some (op, { m with decoder })
  | .error _ _ => none

end Machine

theorem Machine.fetched?_eq_some_iff {m m' : Machine} {op : Opcode} :
    m.fetched? = some (op, m') ↔
      ∃ d, Reading.instruction.run m.decoder = .ok op d ∧ m' = { m with decoder := d } := by
  unfold fetched?
  cases Reading.instruction.run m.decoder <;> simp [eq_comm]

theorem Exec.instruction_run_eq_ok (c c' : Core) (op : Opcode) :
    (decode Reading.instruction).run c = .ok op c' ↔
      ∃ m, c.machine.fetched? = some (op, m) ∧ c' = { c with machine := m } := by
  change decode Reading.instruction c = _ ↔ _
  unfold decode Machine.fetched?
  cases Reading.instruction.run c.machine.decoder <;> simp [eq_comm]

namespace Core

/-- A step that does not fail has fetched an instruction. It has either carried it out by the rules, or
hands its operation over. -/
theorem step_eq_ok_iff (c c' : Core) (result : Option Opcode) :
    c.step = (.ok result, c') ↔
      ∃ address op m, c.machine.decoder.address = .ok address ∧ c.machine.fetched? = some (op, m) ∧
        (op.isComputational = true ∧ result = none ∧ Computes { c with machine := m } op c' ∨
          op.isComputational = false ∧ result = some op ∧ c' = { c with machine := m }) := by
  have hstep : c.step = (.ok result, c') ↔ Exec.step.run c = .ok result c' := by
    unfold step
    cases Exec.step.run c <;> simp
  rw [hstep, Exec.step]
  simp only [EStateM.run_bind_eq_ok, Exec.here_run_eq_ok, Exec.instruction_run_eq_ok]
  constructor
  · rintro ⟨address, _, ⟨haddress, rfl⟩, op, _, ⟨m, hm, rfl⟩, h⟩
    refine ⟨address, op, m, haddress, hm, ?_⟩
    split at h
    next hop =>
      obtain ⟨u, c₁, hrun, hend⟩ := (EStateM.run_bind_eq_ok _ _ _ _ _).mp h
      obtain ⟨rfl, rfl⟩ := EStateM.Result.ok.inj hend
      exact .inl ⟨hop, rfl, (Exec.compute_run_eq_ok_iff _ _ address hop).mp hrun⟩
    next hop =>
      obtain ⟨rfl, rfl⟩ := EStateM.Result.ok.inj h
      exact .inr ⟨Bool.eq_false_iff.mpr hop, rfl, rfl⟩
  · rintro ⟨address, op, m, haddress, hm, hend⟩
    refine ⟨address, c, ⟨haddress, rfl⟩, op, _, ⟨m, hm, rfl⟩, ?_⟩
    rcases hend with ⟨hop, rfl, h⟩ | ⟨hop, rfl, rfl⟩
    · rw [if_pos hop]
      apply (EStateM.run_bind_eq_ok _ _ _ _ _).mpr
      exact ⟨(), c', (Exec.compute_run_eq_ok_iff _ _ address hop).mpr h, rfl⟩
    · rw [if_neg (Bool.eq_false_iff.mp hop)]
      rfl

end Core

end PrefixVM
