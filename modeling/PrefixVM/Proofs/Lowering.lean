import Mathlib.Data.List.Basic
import PrefixVM.Proofs.SourceMachine

/-!
Computing instructions in both machines. A state of the machine for sources is lowered by turning positions
in the list of instructions into bit offsets; everything else stays. What the image machine computes on a
lowered state is the lowered result of the source machine. This rests on labels standing for the offsets of
their instructions, and on a last instruction that hands control over, so that no jump, call or return leads
behind the code.
-/
namespace PrefixVM.Asm

/-- The operands of the instruction that was fetched last, with its label replaced by a bit offset. -/
def State.record (items : List Item) (s : State) : Operands :=
  match s.current with
  | none => {}
  | some i =>
    { address := if i.opcode.hasAddress then
        UInt32.ofNat (offset (instructions items) (i.targetIndex items)) else 0
      constant := if i.opcode.hasConstant then i.constant else 0
      args := i.args }

/-- The state of the image machine that stands for a state of the source machine. -/
def State.lower (items : List Item) (code : Code) (s : State) : Core :=
  { machine :=
      { registers := s.registers
        stack := s.stack.map fun k => UInt32.ofNat (offset (instructions items) k)
        decoder :=
          { code
            cursor := offset (instructions items) s.counter
            record := s.record items } }
    memory := s.memory }

/-- A code holds the instructions of a source: they are well formed, their bits stand one after the other
and are followed by padding, every address is the offset of an instruction, and the last instruction
halts. -/
structure Holds (items : List Item) (code : Code) : Prop where
  wellFormed : ∀ i ∈ instructions items, i.WellFormed
  bits : code.bits = codeBits (Labels.ofItems 0 items) (instructions items) ++
    List.replicate (Bits.slack (totalLength (instructions items))) false
  size : totalLength (instructions items) < UInt32.size
  target_lt : ∀ i ∈ instructions items, i.targetIndex items < (instructions items).length
  address : ∀ i ∈ instructions items, i.opcode.hasAddress = true →
    (i.resolved (Labels.ofItems 0 items)).address =
      UInt32.ofNat (offset (instructions items) (i.targetIndex items))
  last : ∃ i, (instructions items).getLast? = some i ∧ i.opcode = .halt

structure State.Valid (items : List Item) (s : State) : Prop where
  counter : s.counter ≤ (instructions items).length
  stack : ∀ k ∈ s.stack, k < (instructions items).length
  current : ∀ i, s.current = some i → i ∈ instructions items

namespace Holds

variable {items : List Item} {code : Code}

theorem length_pos (h : Holds items code) : 0 < (instructions items).length := by
  obtain ⟨i, hi, -⟩ := h.last
  exact List.length_pos_of_mem (List.mem_of_getLast? hi)

/-- An instruction that does not halt is not the last one. -/
theorem succ_lt (h : Holds items code) {k : Nat} {i : Instruction}
    (hi : (instructions items)[k]? = some i) (hop : i.opcode ≠ .halt) :
    k + 1 < (instructions items).length := by
  obtain ⟨j, hj, hhalt⟩ := h.last
  have hk := (List.getElem?_eq_some_iff.mp hi).1
  by_contra hlast
  -- the last one halts
  have hlen : k = (instructions items).length - 1 := by omega
  rw [List.getLast?_eq_getElem?, ← hlen, hi] at hj
  rw [Option.some.inj hj] at hop
  exact hop hhalt

theorem offset_lt_size (h : Holds items code) (k : Nat) :
    offset (instructions items) k < UInt32.size :=
  Nat.lt_of_le_of_lt (offset_le _ k) h.size

theorem toNat_offset (h : Holds items code) (k : Nat) :
    (UInt32.ofNat (offset (instructions items) k)).toNat = offset (instructions items) k :=
  UInt32.toNat_ofNat_of_lt' (h.offset_lt_size k)

theorem offset_lt_length (h : Holds items code) {k : Nat} (hk : k < (instructions items).length) :
    offset (instructions items) k < code.length := by
  have hi := List.getElem?_eq_getElem hk
  have hlen := (h.wellFormed _ (List.mem_of_getElem? hi))
  have hsucc := offset_succ hi
  have hle := offset_le (instructions items) (k + 1)
  have hpos : 0 < ((instructions items)[k]).length := by
    rw [← length_ofInstruction _ 0]
    exact Bits.length_ofInstruction_pos _ _ hlen.opcode
  have hcode : totalLength (instructions items) ≤ code.length := by
    rw [← Code.length_bits, h.bits, List.length_append, length_codeBits]
    omega
  omega

/-- The decoder of a lowered state stands in front of the bits of the remaining instructions. -/
theorem rest_eq (h : Holds items code) (k : Nat) (record : Operands) :
    Decoder.rest { code, cursor := offset (instructions items) k, record } =
      codeBits (Labels.ofItems 0 items) ((instructions items).drop k) ++
        List.replicate (Bits.slack (totalLength (instructions items))) false := by
  have hsplit : codeBits (Labels.ofItems 0 items) (instructions items) =
      codeBits (Labels.ofItems 0 items) ((instructions items).take k) ++
        codeBits (Labels.ofItems 0 items) ((instructions items).drop k) := by
    rw [codeBits, codeBits, codeBits, ← List.flatMap_append, List.take_append_drop]
  have hlen : (codeBits (Labels.ofItems 0 items) ((instructions items).take k)).length =
      offset (instructions items) k := length_codeBits _ _
  rw [Decoder.rest, h.bits, hsplit, List.append_assoc, ← hlen, List.drop_left]

theorem instruction_run (h : Holds items code) (s : State) {i : Instruction}
    (hi : (instructions items)[s.counter]? = some i) :
    Reading.instruction.run (s.lower items code).machine.decoder =
      .ok i.opcode ((s.fetched i).lower items code).machine.decoder := by
  have hmem := List.mem_of_getElem? hi
  have hwf := h.wellFormed i hmem
  obtain ⟨hlt, hget⟩ := List.getElem?_eq_some_iff.mp hi
  have hrest := h.rest_eq s.counter (s.record items)
  rw [List.drop_eq_getElem_cons hlt, hget] at hrest
  have hpre : Bits.ofInstruction i.opcode (i.resolved (Labels.ofItems 0 items)) <+:
      (s.lower items code).machine.decoder.rest := by
    change _ <+: Decoder.rest { code, cursor := offset (instructions items) s.counter, record := _ }
    rw [hrest, codeBits, List.flatMap_cons, List.append_assoc]
    exact List.prefix_append _ _
  -- the record holds what the instruction was written with
  have hrecord : (s.fetched i).record items = i.resolved (Labels.ofItems 0 items) := by
    have hfits := hwf.fits (Labels.ofItems 0 items)
    cases hop : i.opcode.hasAddress with
    | true =>
      simp only [State.record, State.fetched, hop, if_true]
      rw [← h.address i hmem hop]
      rfl
    | false =>
      simp only [State.record, State.fetched, hop, Bool.false_eq_true, if_false]
      rw [← hfits.address hop]
      rfl
  rw [← Decoder.fetch_eq_iff, Decoder.fetch_of_prefix _ _ _ hwf.opcode (hwf.fits _) hpre]
  congr 1
  simp only [State.lower, Decoder.skip, Decoder.withRecord, hrecord]
  congr 1
  exact (congrArg _ (length_ofInstruction i _)).trans (offset_succ hi).symm

theorem instruction_run_end (h : Holds items code) (s : State)
    (hs : (instructions items).length ≤ s.counter) :
    Reading.instruction.run (s.lower items code).machine.decoder =
      .ok .padding ({ s with current := none }.lower items code).machine.decoder := by
  have hrest := h.rest_eq s.counter (s.record items)
  rw [List.drop_of_length_le hs] at hrest
  rw [← Decoder.fetch_eq_iff]
  apply Decoder.fetch_of_isPadding
  apply Code.isPadding_of_zeros _ _ (Bits.slack (totalLength (instructions items)))
  · exact Nat.mod_lt _ (by decide)
  · exact hrest

end Holds

def toResult {α : Type} (x : Except Fault α) (c : Core) : EStateM.Result Fault Core α :=
  match x with
  | .ok a => .ok a c
  | .error fault => .error fault c

/-- The result of a computation that replaces the state or leaves it alone. -/
def outcome (c : Core) : Except Fault Core → EStateM.Result Fault Core Unit
  | .ok c' => .ok () c'
  | .error fault => .error fault c

theorem setArg_run_eq (c : Core) (index : Nat) (v : Int64) :
    (Exec.setArg index v).run c = outcome c (c.writeArg index v) := by
  rw [Exec.setArg, EStateM.run_get_bind, Core.writeArg]
  cases c.machine.destination c.memory index <;> rfl

theorem run_bind {α β : Type} (x : Exec α) (f : α → Exec β) (c : Core) :
    (x >>= f).run c = match x.run c with
      | .ok a c' => (f a).run c'
      | .error fault c' => .error fault c' := by
  change EStateM.bind x f c = _
  unfold EStateM.bind EStateM.run
  cases x c <;> rfl

section Operands

variable (items : List Item) (code : Code) (s : State)

theorem operand_lower (index : Nat) : (s.lower items code).machine.operand index = s.operand index := by
  have hargs : (s.record items).args = s.current.elim [] Instruction.args := by
    cases hs : s.current <;> simp only [State.record, hs, Option.elim_none, Option.elim_some]
  rw [State.operand, ← hargs]
  rfl

theorem register_lower (i : UInt8) : (s.lower items code).machine.register i = s.register i := rfl

theorem readArg_lower (index : Nat) :
    (s.lower items code).machine.readArg (s.lower items code).memory index = s.readArg index := by
  rw [Machine.readArg, operand_lower, State.readArg]
  cases s.operand index with
  | error fault => rfl
  | ok o => cases o <;> rfl

theorem writeArg_lower (index : Nat) (v : Int64) :
    (s.lower items code).writeArg index v = (s.writeArg index v).map (State.lower items code) := by
  rw [Core.writeArg, Machine.destination, operand_lower, State.writeArg]
  cases s.operand index with
  | error fault => rfl
  | ok o =>
    cases o with
    | register r =>
      by_cases hr : r.toNat < 16
      · simp only [bind, Except.bind, State.store, hr, dif_pos]
        rfl
      · simp only [bind, Except.bind, State.store, hr, dif_neg, not_false_eq_true]
        rfl
    | memory w r =>
      -- the image machine looks for the place first, and storing there cannot fail
      simp only [bind, Except.bind, register_lower, State.store, Memory.write]
      cases s.register r with
      | error fault => rfl
      | ok address =>
        change Except.bind (Except.bind (s.memory.place address w.bytes) _) _ =
          Except.map _ (Except.bind (Except.bind (s.memory.place address w.bytes) _) _)
        cases s.memory.place address w.bytes <;> rfl

theorem operand_eq (index : Nat) (o : Operand) {i : Instruction} (hs : s.current = some i)
    (ho : i.args[index]? = some o) : s.operand index = .ok o := by
  simp only [State.operand, hs, Option.elim_some, ho]

theorem arg_run (index : Nat) (o : Operand) {i : Instruction} (hs : s.current = some i)
    (ho : i.args[index]? = some o) :
    (Exec.arg index).run (s.lower items code) = toResult (s.value o) (s.lower items code) := by
  have hread : (s.lower items code).machine.readArg (s.lower items code).memory index = s.value o := by
    rw [readArg_lower, State.readArg, operand_eq s index o hs ho]
    rfl
  rw [Exec.arg, EStateM.run_get_bind, hread]
  cases s.value o <;> rfl

/-- The result of a computation that gives a new state or leaves the old one alone. -/
def settle (x : Except Fault State) : EStateM.Result Fault Core Unit :=
  outcome (s.lower items code) (x.map (State.lower items code))

theorem setArg_run (index : Nat) (o : Operand) (v : Int64) {i : Instruction}
    (hs : s.current = some i) (ho : i.args[index]? = some o) :
    (Exec.setArg index v).run (s.lower items code) = settle items code s (s.store v o) := by
  have hwrite : s.writeArg index v = s.store v o := by
    rw [State.writeArg, operand_eq s index o hs ho]
    rfl
  rw [setArg_run_eq, writeArg_lower, hwrite, settle]

/-- Both machines read an operand, and go on alike with any value that it may have. -/
theorem arg_bind_run (index : Nat) (o : Operand) {i : Instruction} (hs : s.current = some i)
    (ho : i.args[index]? = some o) {f : Int64 → Exec Unit} {g : Int64 → Except Fault State}
    (hfg : ∀ v, (f v).run (s.lower items code) = settle items code s (g v)) :
    (Exec.arg index >>= f).run (s.lower items code) = settle items code s (s.value o >>= g) := by
  rw [run_bind, arg_run items code s index o hs ho]
  cases s.value o with
  | error fault => rfl
  | ok v => exact hfg v

theorem binary_run {i : Instruction} {a b c : Operand} (f : Int64 → Int64 → Except Fault Int64)
    (hs : s.current = some i) (hargs : i.args = [a, b, c]) :
    (Exec.binary f).run (s.lower items code) = settle items code s (s.binary f a b c) := by
  apply arg_bind_run items code s 0 a hs (by rw [hargs]; rfl)
  intro x
  apply arg_bind_run items code s 1 b hs (by rw [hargs]; rfl)
  intro y
  cases f x y with
  | error fault => rfl
  | ok v => exact setArg_run items code s 2 c v hs (by rw [hargs]; rfl)

theorem jump_run (h : Holds items code) {k : Nat} (hk : k < (instructions items).length) :
    (Exec.jump (UInt32.ofNat (offset (instructions items) k))).run (s.lower items code) =
      .ok () ({ s with counter := k }.lower items code) := by
  have hjump : (s.lower items code).machine.decoder.jump
      (UInt32.ofNat (offset (instructions items) k)) =
      .ok ({ s with counter := k }.lower items code).machine.decoder := by
    rw [Decoder.jump, h.toNat_offset, if_pos]
    · rfl
    · exact h.offset_lt_length hk
  rw [Exec.jump, EStateM.run_get_bind, hjump]
  rfl

theorem target_run {i : Instruction} (hs : s.current = some i) (hop : i.opcode.hasAddress = true) :
    Exec.target.run (s.lower items code) =
      .ok (UInt32.ofNat (offset (instructions items) (i.targetIndex items))) (s.lower items code) := by
  have haddress : (s.record items).address =
      UInt32.ofNat (offset (instructions items) (i.targetIndex items)) := by
    rw [State.record, hs]
    simp only [hop, if_true]
  rw [← haddress]
  rfl

theorem here_run (h : Holds items code) :
    Exec.here.run (s.lower items code) =
      .ok (UInt32.ofNat (offset (instructions items) s.counter)) (s.lower items code) := by
  have haddress : (s.lower items code).machine.decoder.address =
      .ok (UInt32.ofNat (offset (instructions items) s.counter)) := by
    rw [Decoder.address, if_pos]
    · rfl
    · exact h.offset_lt_size s.counter
  rw [Exec.here, EStateM.run_get_bind, haddress]
  rfl

theorem jump_target_run (h : Holds items code) {i : Instruction} (hs : s.current = some i)
    (hi : i ∈ instructions items) (hop : i.opcode.hasAddress = true) :
    (Exec.target >>= Exec.jump).run (s.lower items code) =
      .ok () ({ s with counter := i.targetIndex items }.lower items code) := by
  rw [run_bind, target_run items code s hs hop]
  exact jump_run items code s h (h.target_lt i hi)

theorem call_run (h : Holds items code) (here : UInt32) {i : Instruction} (hs : s.current = some i)
    (hi : i ∈ instructions items) (hop : i.opcode.hasAddress = true) :
    (Exec.call here).run (s.lower items code) = settle items code s
      (if s.stack.length < Machine.maxDepth then
        .ok { s with counter := i.targetIndex items, stack := s.counter :: s.stack }
      else .error (.stackOverflow here)) := by
  have hlen : (s.lower items code).machine.stack.length = s.stack.length := List.length_map _
  have hrun : (Exec.call here).run (s.lower items code) =
      (if (s.lower items code).machine.stack.length < Machine.maxDepth then do
        Exec.setStack ((← Exec.here) :: (s.lower items code).machine.stack)
        Exec.jump (← Exec.target)
      else throw (.stackOverflow here) : Exec Unit).run (s.lower items code) := rfl
  rw [hrun, hlen]
  by_cases hdepth : s.stack.length < Machine.maxDepth
  · rw [if_pos hdepth, if_pos hdepth, run_bind, here_run items code s h]
    exact jump_target_run items code { s with stack := s.counter :: s.stack } h hs hi hop
  · rw [if_neg hdepth, if_neg hdepth]
    rfl

theorem ret_run_nil (here : UInt32) (hs : s.stack = []) :
    (Exec.ret here).run (s.lower items code) =
      settle items code s (.error (.stackUnderflow here)) := by
  have hstack : (s.lower items code).machine.stack = [] := congrArg _ hs
  rw [Exec.ret, EStateM.run_get_bind, hstack]
  rfl

theorem ret_run_cons (h : Holds items code) (hv : s.Valid items) (here : UInt32) {k : Nat}
    {rest : List Nat} (hs : s.stack = k :: rest) :
    (Exec.ret here).run (s.lower items code) =
      settle items code s (.ok { s with counter := k, stack := rest }) := by
  have hk : k < (instructions items).length := hv.stack k (by rw [hs]; exact List.mem_cons_self)
  have hstack : (s.lower items code).machine.stack = UInt32.ofNat (offset (instructions items) k) ::
      rest.map fun k => UInt32.ofNat (offset (instructions items) k) := congrArg (List.map _) hs
  rw [Exec.ret, EStateM.run_get_bind, hstack]
  exact jump_run items code { s with stack := rest } h hk

theorem mov_run {i : Instruction} {a b : Operand} (hs : s.current = some i) (hargs : i.args = [a, b]) :
    (Exec.arg 0 >>= Exec.setArg 1).run (s.lower items code) =
      settle items code s (s.value a >>= fun v => s.store v b) := by
  apply arg_bind_run items code s 0 a hs (by rw [hargs]; rfl)
  intro v
  exact setArg_run items code s 1 b v hs (by rw [hargs]; rfl)

theorem jumpEqual_run (h : Holds items code) {i : Instruction} {a b : Operand} (hs : s.current = some i)
    (hi : i ∈ instructions items) (hop : i.opcode.hasAddress = true) (hargs : i.args = [a, b]) :
    (do
      let x ← Exec.arg 0
      let y ← Exec.arg 1
      if x = y then Exec.jump (← Exec.target) : Exec Unit).run (s.lower items code) =
      settle items code s (do
        let x ← s.value a
        let y ← s.value b
        return if x = y then { s with counter := i.targetIndex items } else s) := by
  apply arg_bind_run items code s 0 a hs (by rw [hargs]; rfl)
  intro x
  apply arg_bind_run items code s 1 b hs (by rw [hargs]; rfl)
  intro y
  by_cases hxy : x = y
  · rw [if_pos hxy, if_pos hxy]
    exact jump_target_run items code s h hs hi hop
  · rw [if_neg hxy, if_neg hxy]
    rfl

/-- A computing instruction does the same in both machines. -/
theorem compute_run (h : Holds items code) (hv : s.Valid items) (here : UInt32) {i : Instruction}
    (hs : s.current = some i) (hop : i.opcode.isComputational = true) :
    (Exec.compute here i.opcode).run (s.lower items code) =
      settle items code s (s.execute items here i) := by
  have hi := hv.current i hs
  have hargs := (h.wellFormed i hi).args_length
  -- operations that are handed over are left out here
  cases hcode : i.opcode <;> rw [hcode] at hargs hop <;> cases hop
  case loadConst =>
    obtain ⟨a, hargs⟩ := List.length_eq_one_iff.mp hargs
    have hrecord : (s.record items).constant = i.constant := by
      rw [State.record, hs]
      simp only [hcode, Opcode.hasConstant, if_true]
    have hset := setArg_run items code s 0 a i.constant hs (by rw [hargs]; rfl)
    simp only [State.execute, hcode, hargs]
    rw [← hset, ← hrecord]
    rfl
  case mov =>
    obtain ⟨a, b, hargs⟩ := List.length_eq_two.mp hargs
    simp only [State.execute, hcode, hargs]
    exact mov_run items code s hs hargs
  case jump =>
    simp only [State.execute, hcode, List.length_eq_zero_iff.mp hargs]
    exact jump_target_run items code s h hs hi (by rw [hcode]; rfl)
  case jumpEqual =>
    obtain ⟨a, b, hargs⟩ := List.length_eq_two.mp hargs
    simp only [State.execute, hcode, hargs]
    exact jumpEqual_run items code s h hs hi (by rw [hcode]; rfl) hargs
  case call =>
    simp only [State.execute, hcode, List.length_eq_zero_iff.mp hargs]
    exact call_run items code s h here hs hi (by rw [hcode]; rfl)
  case ret =>
    simp only [State.execute, hcode, List.length_eq_zero_iff.mp hargs]
    cases hstack : s.stack with
    | nil => exact ret_run_nil items code s here hstack
    | cons k rest => exact ret_run_cons items code s h hv here hstack
  -- what remains stores the result of an operation on two operands through a third one
  all_goals
    obtain ⟨a, b, c, hargs⟩ := List.length_eq_three.mp hargs
    simp only [Exec.compute, State.execute, hcode, hargs]
    exact binary_run items code s _ hs hargs

end Operands

end PrefixVM.Asm
