import PrefixVM.Proofs.Computing
import PrefixVM.Proofs.Decoding

/-!
Faults of a machine. A machine that stands inside a code whose positions are addresses stays there, and the
operands that it has read are all that its next operation asks for. So none of its steps finds that the parts
of the machine disagree: what can fail is a jump, a memory access or the instruction itself.
-/
namespace PrefixVM

namespace Fault

/-- Faults that would show that codewords, operand counts, registers, addresses and services do not fit
together. -/
def isInternal : Fault → Bool
  | .missingArgument _ | .registerRange _ | .unserviced _ | .decode (.invalidPrefix _)
  | .decode (.addressOverflow _) => true
  | _ => false

/-- Faults of an instruction that its thread deals with by stopping, without a result. -/
def isCaught : Fault → Bool
  | .divisionByZero _ | .stackOverflow _ | .stackUnderflow _ | .unknownInstruction _
  | .decode (.streamExhausted _) => true
  | _ => false

/-- Faults that a service may end with, so that they become the result of its thread. -/
def isReportable (fault : Fault) : Bool :=
  !fault.isInternal && !fault.isCaught

theorem isReportable_iff {fault : Fault} :
    fault.isReportable = true ↔ fault.isInternal = false ∧ fault.isCaught = false := by
  simp [isReportable]

end Fault

/-- A computation fails from a state only in certain ways. -/
def FailsOnly {ε σ α : Type} (P : ε → Prop) (x : EStateM ε σ α) (s : σ) : Prop :=
  ∀ e s', x.run s = .error e s' → P e

section FailsOnly

variable {ε σ α β : Type} {P : ε → Prop}

theorem FailsOnly.bind {x : EStateM ε σ α} {f : α → EStateM ε σ β} {s : σ}
    (hx : FailsOnly P x s)
    (hf : ∀ a s₁, x.run s = .ok a s₁ → FailsOnly P (f a) s₁) :
    FailsOnly P (x >>= f) s := by
  intro e s' h
  change EStateM.bind x f s = _ at h
  unfold EStateM.bind at h
  split at h
  next a s₁ hrun => exact hf a s₁ hrun e s' h
  next e₁ s₁ hrun =>
    cases h
    exact hx e s' hrun

theorem FailsOnly.pure (a : α) (s : σ) : FailsOnly P (pure a : EStateM ε σ α) s := by
  intro e s' h
  cases h

theorem FailsOnly.throw {e : ε} (he : P e) (s : σ) :
    FailsOnly P (throw e : EStateM ε σ α) s := by
  intro e' s' h
  cases h
  exact he

theorem FailsOnly.modify (f : σ → σ) (s : σ) :
    FailsOnly P (modify f : EStateM ε σ PUnit) s := by
  intro e s' h
  cases h

end FailsOnly

namespace Opcode

/-- Whatever up to `n` bits follow a word, a codeword is complete by then. -/
def completes : (n : Nat) → (word : List Bool) → Bool
  | 0, _ => false
  | n + 1, word => [false, true].all fun b =>
    (ofCodeword? (word ++ [b])).isSome || completes n (word ++ [b])

theorem completes_nil : completes maxCodewordLength [] = true := by
  decide

end Opcode

namespace Reading

/-- The code is used up. -/
def Exhausted (cause : DecodeError) : Prop :=
  ∃ position, cause = .streamExhausted position

theorem bit_failsOnly (d : Decoder) : FailsOnly Exhausted bit d := by
  intro cause d' h
  cases hrest : d.rest with
  | nil =>
    rw [bit_run_nil hrest] at h
    cases h
    exact ⟨_, rfl⟩
  | cons b r =>
    rw [bit_run_cons hrest] at h
    cases h

theorem field_failsOnly {width : Nat} (hw : 0 < width) (d : Decoder) :
    FailsOnly Exhausted (field width) d := by
  intro cause d' h
  rw [field_run width hw] at h
  split at h
  next => cases h
  next =>
    cases h
    exact ⟨_, rfl⟩

/-- No sequence of bits is as long as the longest codeword without a codeword at its start. -/
theorem opcodeFrom_failsOnly {n : Nat} {word : List Bool} (h : Opcode.completes n word = true)
    (d : Decoder) : FailsOnly Exhausted (opcodeFrom word n) d := by
  induction n generalizing word d with
  | zero => cases h
  | succ n ih =>
    apply (bit_failsOnly d).bind
    intro b d₁ _
    simp only [List.concat_eq_append]
    split
    next => exact .pure _ _
    next hnone =>
      -- no codeword yet, so one is complete within the bits that are left
      have hb : (Opcode.ofCodeword? (word ++ [b])).isSome || Opcode.completes n (word ++ [b]) :=
        List.all_eq_true.mp h b (by cases b <;> simp)
      rw [hnone] at hb
      exact ih hb d₁

theorem operand_failsOnly (d : Decoder) : FailsOnly Exhausted operand d := by
  apply (bit_failsOnly d).bind
  intro b d₁ _
  cases b with
  | false => exact (field_failsOnly (by decide) d₁).bind fun _ _ _ => .pure _ _
  | true =>
    apply (field_failsOnly (by decide) d₁).bind
    intro selector d₂ _
    exact (field_failsOnly (by decide) d₂).bind fun _ _ _ => .pure _ _

theorem operands_failsOnly (n : Nat) (d : Decoder) : FailsOnly Exhausted (operands n) d := by
  induction n generalizing d with
  | zero => exact .pure _ _
  | succ n ih =>
    apply (operand_failsOnly d).bind
    intro o d₁ _
    exact (FailsOnly.modify _ d₁).bind fun _ d₂ _ => ih d₂

theorem body_failsOnly (op : Opcode) (d : Decoder) : FailsOnly Exhausted (body op) d := by
  rw [body_eq_parts]
  have hfield (width : Nat) (hw : 0 < width) (has : Bool) (put : Nat → Decoder → Decoder) (d : Decoder) :
      FailsOnly Exhausted (if has then do
        let n ← field width
        modify (put n) else pure () : Reading Unit) d := by
    cases has with
    | false => exact .pure _ _
    | true => exact (field_failsOnly hw d).bind fun _ _ _ => .modify _ _
  apply FailsOnly.bind
  · exact hfield Bits.addressWidth (by decide) op.hasAddress
      (fun n d => { d with record := { d.record with address := UInt32.ofNat n } }) d
  · intro _ d₁ _
    apply FailsOnly.bind
    · exact hfield Bits.constantWidth (by decide) op.hasConstant
        (fun n d => { d with record := { d.record with constant := (UInt64.ofNat n).toInt64 } }) d₁
    · intro _ d₂ _
      exact operands_failsOnly _ d₂

theorem instruction_failsOnly (d : Decoder) : FailsOnly Exhausted instruction d := by
  have hrest : FailsOnly Exhausted (if d.code.isPadding d.cursor = true then pure .padding
      else do
        let op ← opcode
        body op
        return op : Reading Opcode) (d.withRecord {}) := by
    split
    next => exact .pure _ _
    next =>
      apply (opcodeFrom_failsOnly Opcode.completes_nil _).bind
      intro op d₁ _
      exact (body_failsOnly op d₁).bind fun _ _ _ => .pure _ _
  exact hrest

end Reading

namespace Decoder

/-- The decoder stands inside a code, or at its end. -/
structure Within (d : Decoder) (code : Code) : Prop where
  code_eq : d.code = code
  cursor_le : d.cursor ≤ code.length

theorem within_start (code : Code) : (start code).Within code :=
  ⟨rfl, Nat.zero_le _⟩

variable {d d' : Decoder} {code : Code}

theorem Within.jump (hd : d.Within code) {target : UInt32} (h : d.jump target = .ok d') :
    d'.Within code := by
  unfold Decoder.jump at h
  split at h
  next hlt =>
    cases h
    refine ⟨hd.code_eq, ?_⟩
    rw [← hd.code_eq]
    exact Nat.le_of_lt hlt
  next => cases h

theorem jump_eq_error {cause : DecodeError} {target : UInt32} (h : d.jump target = .error cause) :
    cause = .jumpOutOfRange target d.code.length := by
  unfold Decoder.jump at h
  split at h
  next => cases h
  next =>
    cases h
    rfl

theorem Within.address (hd : d.Within code) (hcode : code.length < UInt32.size) :
    d.address = .ok (UInt32.ofNat d.cursor) :=
  if_pos (Nat.lt_of_le_of_lt hd.cursor_le hcode)

/-- Reading an instruction stays inside the code, and the record holds what the operation asks for. -/
theorem Within.instruction (hd : d.Within code) {op : Opcode}
    (h : Reading.instruction.run d = .ok op d') :
    d'.Within code ∧ d'.record.Fits op := by
  rcases (Reading.instruction_run_eq_ok d op d').mp h with ⟨-, rfl, rfl⟩ | ⟨-, -, o, hfits, hpre, rfl⟩
  · exact ⟨⟨hd.code_eq, hd.cursor_le⟩, ⟨rfl, by simp, fun _ => rfl, fun _ => rfl⟩⟩
  · have hlen := hpre.length_le
    have hcursor := hd.cursor_le
    rw [d.length_rest, hd.code_eq] at hlen
    refine ⟨⟨hd.code_eq, ?_⟩, hfits⟩
    change d.cursor + (Bits.ofInstruction op o).length ≤ code.length
    omega

end Decoder

/-- A question that is answered, or fails in a way that a thread may report. -/
def Reports {α : Type} (x : Except Fault α) : Prop :=
  ∀ fault, x = .error fault → fault.isReportable = true

namespace Reports

variable {α β : Type}

theorem ok (a : α) : Reports (.ok a) := by
  intro fault h
  cases h

theorem error {fault : Fault} (h : fault.isReportable = true) : Reports (.error fault : Except Fault α) := by
  intro fault' h'
  cases h'
  exact h

theorem bind {x : Except Fault α} {f : α → Except Fault β} (hx : Reports x) (hf : ∀ a, Reports (f a)) :
    Reports (x >>= f) := by
  cases x with
  | ok a => exact hf a
  | error fault => exact error (hx fault rfl)

end Reports

namespace Memory

theorem place_reports (m : Memory) (address : Int64) (count : Nat) : Reports (m.place address count) := by
  unfold place
  split
  next => exact .ok _
  next => exact .error rfl

theorem readBytes_reports (m : Memory) (address : Int64) (count : Nat) :
    Reports (m.readBytes address count) :=
  (m.place_reports address count).bind fun _ => .ok _

theorem writeBytes_reports (m : Memory) (address : Int64) (bytes : Bytes) :
    Reports (m.writeBytes address bytes) :=
  (m.place_reports address bytes.length).bind fun _ => .ok _

theorem read_reports (m : Memory) (address : Int64) (width : Width) : Reports (m.read address width) :=
  (m.readBytes_reports address width.bytes).bind fun _ => .ok _

end Memory

namespace Machine

variable {m : Machine} {op : Opcode} {index : Nat}

theorem operand_eq_ok (hfits : m.decoder.record.Fits op) (hindex : index < op.operandCount) :
    ∃ o, m.operand index = .ok o ∧ o.index.toNat < registerCount := by
  have hlt : index < m.decoder.record.args.length := by
    rw [hfits.args_length]
    exact hindex
  refine ⟨m.decoder.record.args[index], ?_, hfits.registers _ (List.getElem_mem hlt)⟩
  simp only [operand, Operands.arg?, List.getElem?_eq_getElem hlt]

theorem register_reports {i : UInt8} (hi : i.toNat < registerCount) : Reports (m.register i) := by
  unfold register
  cases hget : m.registers[i.toNat]? with
  | none =>
    have hle : 16 ≤ i.toNat := Vector.getElem?_eq_none_iff.mp hget
    exact absurd hi (Nat.not_lt.mpr hle)
  | some value => exact .ok value

/-- An operand of the operation that was fetched is there, and has one of the registers. -/
theorem readArg_reports (hfits : m.decoder.record.Fits op) (hindex : index < op.operandCount)
    (memory : Memory) : Reports (m.readArg memory index) := by
  obtain ⟨o, ho, hreg⟩ := operand_eq_ok hfits hindex
  unfold readArg
  rw [ho]
  cases o with
  | register i => exact register_reports hreg
  | memory width i => exact (register_reports hreg).bind fun address => memory.read_reports address width

theorem destination_reports (hfits : m.decoder.record.Fits op) (hindex : index < op.operandCount)
    (memory : Memory) : Reports (m.destination memory index) := by
  obtain ⟨o, ho, hreg⟩ := operand_eq_ok hfits hindex
  unfold destination
  rw [ho]
  cases o with
  | register i =>
    have hi : i.toNat < 16 := hreg
    simp only [bind, Except.bind, dif_pos hi]
    exact .ok _
  | memory width i =>
    apply (register_reports hreg).bind
    intro address
    exact (memory.place_reports address width.bytes).bind fun _ => .ok _

theorem fork_reports (m : Machine) (entry : UInt32) : Reports (m.fork entry) := by
  unfold fork
  split
  next => exact .ok _
  next cause hcause =>
    rw [Decoder.jump_eq_error hcause]
    exact .error rfl

end Machine

namespace Exec

/-- A computing instruction fails only for a reason that lies in the program. -/
abbrev FailsInProgram {α : Type} (x : Exec α) (c : Core) : Prop :=
  FailsOnly (fun fault => fault.isInternal = false) x c

variable {c : Core} {op : Opcode} {code : Code}

theorem throw_failsOnly {α : Type} {fault : Fault} (h : fault.isInternal = false) (c : Core) :
    FailsInProgram (throw fault : Exec α) c :=
  FailsOnly.throw (P := fun fault : Fault => fault.isInternal = false) h c

theorem arg_failsOnly (hfits : c.machine.decoder.record.Fits op) {index : Nat}
    (hindex : index < op.operandCount) : FailsInProgram (arg index) c := by
  intro fault c' h
  rw [arg_run] at h
  split at h
  next => cases h
  next fault' hread =>
    cases h
    exact (Fault.isReportable_iff.mp (Machine.readArg_reports hfits hindex _ fault hread)).1

theorem setArg_failsOnly (hfits : c.machine.decoder.record.Fits op) {index : Nat}
    (hindex : index < op.operandCount) (v : Int64) : FailsInProgram (setArg index v) c := by
  intro fault c' h
  rw [setArg_run] at h
  split at h
  next => cases h
  next fault' hread =>
    cases h
    exact (Fault.isReportable_iff.mp (Machine.destination_reports hfits hindex _ fault hread)).1

theorem jump_run_eq_error {c' : Core} {target : UInt32} {fault : Fault}
    (h : (jump target).run c = .error fault c') :
    fault = .decode (.jumpOutOfRange target c.machine.decoder.code.length) ∧ c' = c := by
  rw [jump_run] at h
  split at h
  next => cases h
  next cause hjump =>
    cases h
    rw [Decoder.jump_eq_error hjump]
    exact ⟨rfl, rfl⟩

theorem jump_failsOnly (target : UInt32) (c : Core) : FailsInProgram (jump target) c := by
  intro fault c' h
  obtain ⟨rfl, -⟩ := jump_run_eq_error h
  rfl

theorem here_failsOnly (hd : c.machine.decoder.Within code) (hcode : code.length < UInt32.size) :
    FailsInProgram here c := by
  intro fault c' h
  rw [here_run, hd.address hcode] at h
  cases h

theorem instruction_failsOnly (c : Core) : FailsInProgram (decode Reading.instruction) c := by
  intro fault c' h
  change decode Reading.instruction c = _ at h
  unfold decode at h
  split at h
  next => cases h
  next cause d hread =>
    cases h
    obtain ⟨position, rfl⟩ := Reading.instruction_failsOnly _ _ _ hread
    rfl

theorem arg_bind_failsOnly {β : Type} (hfits : c.machine.decoder.record.Fits op) {index : Nat}
    (hindex : index < op.operandCount) {f : Int64 → Exec β} (hf : ∀ v, FailsInProgram (f v) c) :
    FailsInProgram (arg index >>= f) c := by
  apply (arg_failsOnly hfits hindex).bind
  intro v c₁ h
  obtain ⟨-, rfl⟩ := (arg_run_eq_ok c c₁ index v).mp h
  exact hf v

theorem jump_target_failsOnly (c : Core) : FailsInProgram (target >>= jump) c :=
  jump_failsOnly c.machine.decoder.record.address c

theorem binary_failsOnly (hfits : c.machine.decoder.record.Fits op) (hcount : op.operandCount = 3)
    {f : Int64 → Int64 → Except Fault Int64}
    (hf : ∀ a b fault, f a b = .error fault → fault.isInternal = false) :
    FailsInProgram (binary f) c := by
  apply arg_bind_failsOnly hfits (by omega)
  intro a
  apply arg_bind_failsOnly hfits (by omega)
  intro b
  split
  next v _ => exact setArg_failsOnly hfits (by omega) v
  next fault hfault => exact throw_failsOnly (hf a b fault hfault) c

theorem call_failsOnly (hd : c.machine.decoder.Within code) (hcode : code.length < UInt32.size)
    (address : UInt32) : FailsInProgram (call address) c := by
  intro fault c' h
  rw [call_run] at h
  split at h
  next =>
    have hjump (next : UInt32) (c₁ : Core) :
        FailsInProgram (setStack (next :: c.machine.stack) >>= fun _ => target >>= jump) c₁ :=
      (FailsOnly.modify _ c₁).bind fun _ c₂ _ => jump_target_failsOnly c₂
    exact (here_failsOnly hd hcode).bind (fun next c₁ _ => hjump next c₁) fault c' h
  next =>
    cases h
    rfl

theorem ret_failsOnly (address : UInt32) (c : Core) : FailsInProgram (ret address) c := by
  intro fault c' h
  rw [ret, EStateM.run_get_bind] at h
  split at h
  next =>
    cases h
    rfl
  next top rest _ =>
    have hjump : FailsInProgram (setStack rest >>= fun _ => jump top) c :=
      (FailsOnly.modify _ c).bind fun _ c₁ _ => jump_failsOnly top c₁
    exact hjump fault c' h

/-- No computing instruction fails because the parts of the machine do not fit together. -/
theorem compute_failsOnly (hop : op.isComputational = true) (hfits : c.machine.decoder.record.Fits op)
    (hd : c.machine.decoder.Within code) (hcode : code.length < UInt32.size) (address : UInt32) :
    FailsInProgram (compute address op) c := by
  by_cases hsink : op.sink? = some 2
  · rw [compute_eq_binary address hsink]
    apply binary_failsOnly hfits
    · cases op <;> first | rfl | cases hsink
    · intro a b fault h
      split at h
      next => cases h
      next =>
        cases h
        rfl
  · match op, hop, hsink with
    | .loadConst, _, _ => exact setArg_failsOnly hfits (by decide) c.machine.decoder.record.constant
    | .mov, _, _ =>
      exact arg_bind_failsOnly hfits (by decide) fun v => setArg_failsOnly hfits (by decide) v
    | .jump, _, _ => exact jump_target_failsOnly c
    | .jumpEqual, _, _ =>
      apply arg_bind_failsOnly hfits (by decide)
      intro a
      apply arg_bind_failsOnly hfits (by decide)
      intro b
      split
      next => exact jump_target_failsOnly c
      next => exact .pure () c
    | .call, _, _ => exact call_failsOnly hd hcode address
    | .ret, _, _ => exact ret_failsOnly address c

end Exec

namespace Machine

variable {m m' : Machine} {op : Opcode}

theorem within_of_fetched? {code : Code} (hd : m.decoder.Within code) (h : m.fetched? = some (op, m')) :
    m'.decoder.Within code ∧ m'.decoder.record.Fits op := by
  obtain ⟨d, hrun, rfl⟩ := fetched?_eq_some_iff.mp h
  exact hd.instruction hrun

end Machine

namespace Core

variable {c c' : Core} {op : Opcode} {code : Code}

theorem Computes.within (h : c.Computes op c') (hd : c.machine.decoder.Within code) :
    c'.machine.decoder.Within code := by
  cases h with
  | load | move | combine =>
    rw [(decoder_put _ _ _).1]
    exact hd
  | jump hjump | branch _ _ hjump | call _ _ hjump | ret _ hjump => exact hd.jump hjump
  | fall => exact hd

theorem step_fault (hd : c.machine.decoder.Within code) (hcode : code.length < UInt32.size)
    {fault : Fault} (h : c.step = (.error fault, c')) : fault.isInternal = false := by
  have hfails : Exec.FailsInProgram Exec.step c := by
    apply (Exec.here_failsOnly hd hcode).bind
    intro address c₁ hhere
    obtain ⟨-, rfl⟩ := (Exec.here_run_eq_ok c c₁ address).mp hhere
    apply (Exec.instruction_failsOnly c₁).bind
    intro op c₂ hread
    obtain ⟨m, hm, rfl⟩ := (Exec.instruction_run_eq_ok c₁ c₂ op).mp hread
    obtain ⟨hm, hfits⟩ := Machine.within_of_fetched? hd hm
    split
    next hop => exact (Exec.compute_failsOnly hop hfits hm hcode address).bind fun _ c₃ _ => .pure _ c₃
    next => exact .pure _ _
  unfold step at h
  split at h
  next => cases h
  next hrun =>
    cases h
    exact hfails fault c' hrun

theorem step_within (hd : c.machine.decoder.Within code) (h : c.step = (.ok none, c')) :
    c'.machine.decoder.Within code := by
  obtain ⟨address, op, m, -, hm, ⟨-, -, hc⟩ | ⟨-, hnone, -⟩⟩ := (step_eq_ok_iff c c' none).mp h
  · exact hc.within (Machine.within_of_fetched? hd hm).1
  · cases hnone

/-- What a machine hands over is an operation that does not compute, with all its operands. -/
theorem step_surfaces (hd : c.machine.decoder.Within code) (h : c.step = (.ok (some op), c')) :
    c'.machine.decoder.Within code ∧ c'.machine.decoder.record.Fits op ∧
      op.isComputational = false := by
  obtain ⟨address, op', m, -, hm, ⟨-, hnone, -⟩ | ⟨hop, hsome, rfl⟩⟩ := (step_eq_ok_iff c c' _).mp h
  · cases hnone
  · obtain rfl := Option.some.inj hsome
    obtain ⟨hm, hfits⟩ := Machine.within_of_fetched? hd hm
    exact ⟨hm, hfits, hop⟩

end Core

end PrefixVM
