import Mathlib.Algebra.BigOperators.Ring.Finset
import PrefixVM.Proofs.Fetching
import PrefixVM.Proofs.Grammar
import PrefixVM.Proofs.Interleavings

/-!
What the computing instructions mean. `Core.Executes` says it in integers and single bytes: which numbers the
operands stand for, what their exact result is, which register or bytes receive it, and where the machine goes
on. Everything on the right of a rule is a fact about the state before the instruction, so that it does not
matter which operands share a register or overlap in memory. A step completes a computing instruction exactly
as these rules say.
-/
namespace PrefixVM

namespace Bytes

theorem toNatLE_eq_sum (b : Bytes) :
    toNatLE b = ∑ i ∈ Finset.range b.length, (b.getD i 0).toNat * 256 ^ i := by
  induction b with
  | nil => rfl
  | cons x rest ih =>
    -- the first byte has weight one, and all others are one place further up than in the rest
    have hshift (i : Nat) : ((x :: rest).getD (i + 1) 0).toNat * 256 ^ (i + 1) =
        256 * ((rest.getD i 0).toNat * 256 ^ i) := by
      rw [List.getD_cons_succ, pow_succ, ← mul_assoc, mul_comm]
    rw [List.length_cons, Finset.sum_range_succ', Finset.sum_congr rfl fun i _ => hshift i,
      ← Finset.mul_sum, ← ih, List.getD_cons_zero, pow_zero, mul_one, add_comm]
    rfl

theorem getElem?_ofNatLE (width n i : Nat) :
    (ofNatLE width n)[i]? = if i < width then some (UInt8.ofNat (n / 256 ^ i)) else none := by
  induction width generalizing n i with
  | zero => rfl
  | succ width ih =>
    cases i with
    | zero => simp [ofNatLE]
    | succ i =>
      have hdiv : n / 256 / 256 ^ i = n / 256 ^ (i + 1) := by
        rw [Nat.div_div_eq_div_mul, pow_succ, mul_comm]
      simp only [ofNatLE, List.getElem?_cons_succ, ih, hdiv, Nat.add_lt_add_iff_right]

end Bytes

namespace Memory

/-- The little-endian number in `count` bytes of memory. -/
def number (m : Memory) (start count : Nat) : Nat :=
  ∑ i ∈ Finset.range count, (m.cells.getD (start + i) 0).toNat * 256 ^ i

theorem toNatLE_load {m : Memory} {start count : Nat} (h : start + count ≤ m.size) :
    Bytes.toNatLE (load m.cells start count) = m.number start count := by
  have hlen : (load m.cells start count).length = count := by
    have hsize : start + count ≤ m.cells.size := h
    rw [load, Array.length_toList, Array.size_extract]
    omega
  rw [Bytes.toNatLE_eq_sum, hlen]
  apply Finset.sum_congr rfl
  intro i hi
  have hi : i < count := Finset.mem_range.mp hi
  have hget : (load m.cells start count).getD i 0 = m.cells.getD (start + i) 0 := by
    have hmin : i < min (start + count) m.cells.size - start := by
      have hsize : start + count ≤ m.cells.size := h
      omega
    rw [load, List.getD_eq_getElem?_getD, Array.getElem?_toList, Array.getElem?_extract, if_pos hmin,
      Array.getD_eq_getD_getElem?]
  rw [hget]

theorem place_eq_ok_iff_toInt {m : Memory} {address : Int64} {count start : Nat} :
    m.place address count = .ok start ↔ address.toInt = start ∧ start + count ≤ m.size := by
  rw [place_eq_ok_iff]
  omega

/-- A read answers the number in its bytes, and the highest of eight bytes counts as the sign. -/
theorem read_eq_ok_iff {m : Memory} {address v : Int64} {width : Width} :
    m.read address width = .ok v ↔
      ∃ start : Nat, address.toInt = start ∧ start + width.bytes ≤ m.size ∧
        v = Int64.ofNat (m.number start width.bytes) := by
  have hread : m.read address width = .ok v ↔
      ∃ start, m.place address width.bytes = .ok start ∧
        Int64.ofNat (Bytes.toNatLE (load m.cells start width.bytes)) = v := by
    unfold read readBytes
    cases m.place address width.bytes <;> simp [bind, Except.bind, pure, Except.pure, Int64.ofNat,
      UInt64.ofNat, UInt64.toInt64]
  rw [hread]
  constructor
  · rintro ⟨start, hplace, rfl⟩
    obtain ⟨haddress, hle⟩ := place_eq_ok_iff_toInt.mp hplace
    exact ⟨start, haddress, hle, by rw [toNatLE_load hle]⟩
  · rintro ⟨start, haddress, hle, rfl⟩
    exact ⟨start, place_eq_ok_iff_toInt.mpr ⟨haddress, hle⟩, by rw [toNatLE_load hle]⟩

/-- Storing a number replaces the bytes of the access by its low bytes, and no others. -/
theorem getElem?_put {m : Memory} {start : Nat} {width : Width} (h : start + width.bytes ≤ m.size)
    (v : Int64) (k : Nat) :
    (m.put start width v).cells[k]? =
      if start ≤ k ∧ k < start + width.bytes then
        some (UInt8.ofNat (v.toUInt64.toNat / 256 ^ (k - start)))
      else m.cells[k]? := by
  have hlen := Bytes.length_ofNatLE width.bytes v.toUInt64.toNat
  rw [put, getElem?_store _ _ _ _ (by rw [hlen]; exact h), hlen]
  simp only [List.mem_range'_1]
  split
  next hk => rw [Bytes.getElem?_ofNatLE, if_pos (by omega)]
  next => rfl

end Memory

namespace Opcode

/-- The exact result of an operation on two numbers: a quotient is rounded towards zero, a remainder has the
sign of the dividend, and a comparison answers the sign of the difference. -/
def outcome? : Opcode → Int → Int → Option Int
  | add, a, b => some (a + b)
  | sub, a, b => some (a - b)
  | mul, a, b => some (a * b)
  | div, a, b => if b = 0 then none else some (a.tdiv b)
  | mod, a, b => if b = 0 then none else some (a.tmod b)
  | compare, a, b => some (a - b).sign
  | _, _, _ => none

theorem order_eq_sign (a b : Int64) : Exec.order a b = Int64.ofInt (a.toInt - b.toInt).sign := by
  simp only [Exec.order, Int64.lt_iff_toInt_lt, ← Int64.toInt_inj]
  rcases Int.lt_trichotomy a.toInt b.toInt with h | h | h
  · rw [if_pos h, Int.sign_eq_neg_one_of_neg (by omega)]
    rfl
  · rw [if_neg (by omega), if_pos h, h, Int.sub_self]
    rfl
  · rw [if_neg (by omega), if_neg (by omega), Int.sign_eq_one_of_pos (by omega)]
    rfl

theorem ne_padding {op : Opcode} (h : op.isComputational = true) : op ≠ .padding := by
  rintro rfl
  cases h

theorem operandCount_of_combine? {op : Opcode} {a b v : Int64} (h : op.combine? a b = some v) :
    op.operandCount = 3 := by
  cases op <;> first | rfl | cases h

/-- Operations on two numbers work with the exact result, reduced modulo 2^64. -/
theorem combine?_eq_outcome? (op : Opcode) (a b : Int64) :
    op.combine? a b = (op.outcome? a.toInt b.toInt).map Int64.ofInt := by
  have hzero : b = 0 ↔ b.toInt = 0 := by
    rw [← Int64.toInt_inj]
    rfl
  have hreduced {v : Int64} {n : Int} (h : v.toInt = n.bmod (2 ^ 64)) : v = Int64.ofInt n := by
    rw [← Int64.toInt_inj, Int64.toInt_ofInt]
    exact h
  cases op with
  | add => exact congrArg some (hreduced (Int64.toInt_add a b))
  | sub => exact congrArg some (hreduced (Int64.toInt_sub a b))
  | mul => exact congrArg some (hreduced (Int64.toInt_mul a b))
  | div =>
    simp only [combine?, outcome?, hzero]
    split
    · rfl
    · exact congrArg some (hreduced (Int64.toInt_div a b))
  | mod =>
    simp only [combine?, outcome?, hzero]
    split
    · rfl
    · -- a remainder never needs reducing
      rw [Option.map_some, ← Int64.toInt_mod, Int64.ofInt_toInt]
  | compare => exact congrArg some (order_eq_sign a b)
  | _ => rfl

-- the one quotient that does not fit wraps around, and leaves no remainder
example : (div.outcome? (-2 ^ 63) (-1)).map Int64.ofInt = some Int64.minValue ∧
    (mod.outcome? (-2 ^ 63) (-1)).map Int64.ofInt = some 0 := by
  decide

end Opcode

namespace Core

/-- The bytes of a memory operand start at `start`: the register holds that number, and all bytes lie inside
the memory. -/
structure Spans (c : Core) (width : Width) (base : UInt8) (start : Nat) : Prop where
  base : ∃ address, c.machine.registers[base.toNat]? = some address ∧ address.toInt = start
  inside : start + width.bytes ≤ c.memory.size

/-- The value of an operand: that of the register, or the zero-extended little-endian number in the bytes that
the register points to. -/
def Holds (c : Core) : Operand → Int64 → Prop
  | .register i, v => c.machine.registers[i.toNat]? = some v
  | .memory width i, v => ∃ start, c.Spans width i start ∧
      v = Int64.ofNat (c.memory.number start width.bytes)

/-- Registers and memory of `c'` are those of `c`, but for the operand, which has received the value: the
register as a whole, or the bytes that the register points to in `c`, lowest first. -/
def Stores (c : Core) (v : Int64) (c' : Core) : Operand → Prop
  | .register i => c'.memory = c.memory ∧
      ∀ j, c'.machine.registers[j]? = if j = i.toNat then some v else c.machine.registers[j]?
  | .memory width i => c'.machine.registers = c.machine.registers ∧
      ∃ start, c.Spans width i start ∧ ∀ k, c'.memory.cells[k]? =
        if start ≤ k ∧ k < start + width.bytes then
          some (UInt8.ofNat (v.toUInt64.toNat / 256 ^ (k - start)))
        else c.memory.cells[k]?

/-- The machine of `c'` has read the operands `o` and goes on at `cursor` with these return addresses. -/
structure GoesOn (c : Core) (o : Operands) (cursor : Nat) (stack : List UInt32) (c' : Core) : Prop where
  decoder : c'.machine.decoder = { code := c.machine.decoder.code, cursor, record := o }
  stack : c'.machine.stack = stack

/-- As `GoesOn`, with registers and memory as they were. -/
structure MovesTo (c : Core) (o : Operands) (cursor : Nat) (stack : List UInt32) (c' : Core) : Prop
    extends c.GoesOn o cursor stack c' where
  registers : c'.machine.registers = c.machine.registers
  memory : c'.memory = c.memory

/-- The rules of the computing instructions. `c` is the state before the instruction, which ends in front of
`next`. -/
inductive Executes (c : Core) (o : Operands) (next : Nat) (c' : Core) : Opcode → Prop where
  | load {d : Operand} (hargs : o.args = [d]) (hd : c.Stores o.constant c' d)
      (hgo : c.GoesOn o next c.machine.stack c') : Executes c o next c' .loadConst
  | move {s d : Operand} {v : Int64} (hargs : o.args = [s, d]) (hs : c.Holds s v)
      (hd : c.Stores v c' d) (hgo : c.GoesOn o next c.machine.stack c') : Executes c o next c' .mov
  | combine {op : Opcode} {s t d : Operand} {a b : Int64} {n : Int} (hargs : o.args = [s, t, d])
      (hs : c.Holds s a) (ht : c.Holds t b) (hn : op.outcome? a.toInt b.toInt = some n)
      (hd : c.Stores (Int64.ofInt n) c' d) (hgo : c.GoesOn o next c.machine.stack c') :
      Executes c o next c' op
  | jump (hin : o.address.toNat < c.machine.decoder.code.length)
      (hgo : c.MovesTo o o.address.toNat c.machine.stack c') : Executes c o next c' .jump
  | branch {s t : Operand} {a : Int64} (hargs : o.args = [s, t]) (hs : c.Holds s a)
      (ht : c.Holds t a) (hin : o.address.toNat < c.machine.decoder.code.length)
      (hgo : c.MovesTo o o.address.toNat c.machine.stack c') : Executes c o next c' .jumpEqual
  | fall {s t : Operand} {a b : Int64} (hargs : o.args = [s, t]) (hs : c.Holds s a)
      (ht : c.Holds t b) (hab : a ≠ b) (hgo : c.MovesTo o next c.machine.stack c') :
      Executes c o next c' .jumpEqual
  | call {back : UInt32} (hback : back.toNat = next)
      (hdepth : c.machine.stack.length < Machine.maxDepth)
      (hin : o.address.toNat < c.machine.decoder.code.length)
      (hgo : c.MovesTo o o.address.toNat (back :: c.machine.stack) c') : Executes c o next c' .call
  | ret {top : UInt32} {rest : List UInt32} (hstack : c.machine.stack = top :: rest)
      (hin : top.toNat < c.machine.decoder.code.length)
      (hgo : c.MovesTo o top.toNat rest c') : Executes c o next c' .ret

end Core

namespace Machine

theorem register_eq_ok_iff {m : Machine} {i : UInt8} {v : Int64} :
    m.register i = .ok v ↔ m.registers[i.toNat]? = some v := by
  unfold register
  cases m.registers[i.toNat]? <;> simp

/-- An operand is read exactly as the value it stands for. -/
theorem readArg_eq_ok_iff (c : Core) (index : Nat) (v : Int64) :
    c.machine.readArg c.memory index = .ok v ↔
      ∃ o, c.machine.decoder.record.arg? index = some o ∧ c.Holds o v := by
  unfold readArg operand
  cases c.machine.decoder.record.arg? index with
  | none => simp [bind, Except.bind]
  | some o =>
    simp only [Option.some.injEq, exists_eq_left']
    cases o with
    | register i => exact register_eq_ok_iff
    | memory width i =>
      change (c.machine.register i >>= fun address => c.memory.read address width) = .ok v ↔ _
      simp only [Except.bind_eq_ok_iff, register_eq_ok_iff, Memory.read_eq_ok_iff, Core.Holds]
      constructor
      · rintro ⟨address, hreg, start, haddress, hle, hv⟩
        exact ⟨start, ⟨⟨address, hreg, haddress⟩, hle⟩, hv⟩
      · rintro ⟨start, ⟨⟨address, hreg, haddress⟩, hle⟩, hv⟩
        exact ⟨address, hreg, start, haddress, hle, hv⟩

end Machine

namespace Core

variable {c c' : Core} {v : Int64}

theorem ext_parts (hregisters : c'.machine.registers = c.machine.registers)
    (hstack : c'.machine.stack = c.machine.stack) (hdecoder : c'.machine.decoder = c.machine.decoder)
    (hmemory : c'.memory = c.memory) : c' = c := by
  obtain ⟨⟨registers', stack', decoder'⟩, memory'⟩ := c'
  obtain ⟨⟨registers, stack, decoder⟩, memory⟩ := c
  simp only at hregisters hstack hdecoder hmemory
  rw [hregisters, hstack, hdecoder, hmemory]

theorem stores_register_iff {i : UInt8} :
    c.Stores v c' (.register i) ∧ c'.machine.decoder = c.machine.decoder ∧
        c'.machine.stack = c.machine.stack ↔
      ∃ h : i.toNat < 16, c' = c.put v (.register ⟨i.toNat, h⟩) := by
  constructor
  · rintro ⟨⟨hmemory, hregisters⟩, hdecoder, hstack⟩
    have hi : i.toNat < 16 := by
      have hget := hregisters i.toNat
      rw [if_pos rfl] at hget
      exact (Vector.getElem?_eq_some_iff.mp hget).1
    refine ⟨hi, ext_parts ?_ hstack hdecoder hmemory⟩
    apply Vector.ext
    intro j hj
    have hget := hregisters j
    rw [Vector.getElem?_eq_getElem hj, Vector.getElem?_eq_getElem hj] at hget
    change _ = (c.machine.registers.set i.toNat v)[j]
    rw [Vector.getElem_set]
    split at hget
    next heq => rw [if_pos heq.symm, Option.some.inj hget]
    next hne => rw [if_neg (Ne.symm hne), Option.some.inj hget]
  · rintro ⟨hi, rfl⟩
    refine ⟨⟨rfl, ?_⟩, rfl, rfl⟩
    intro j
    change (c.machine.registers.set i.toNat v)[j]? = _
    rw [Vector.getElem?_set]
    simp only [eq_comm]

theorem stores_memory_iff {width : Width} {i : UInt8} :
    c.Stores v c' (.memory width i) ∧ c'.machine.decoder = c.machine.decoder ∧
        c'.machine.stack = c.machine.stack ↔
      ∃ start, c.Spans width i start ∧ c' = c.put v (.cells start width) := by
  constructor
  · rintro ⟨⟨hregisters, start, hspans, hcells⟩, hdecoder, hstack⟩
    refine ⟨start, hspans, ext_parts hregisters hstack hdecoder ?_⟩
    apply Memory.ext_getElem?
    intro k
    rw [hcells k]
    exact (Memory.getElem?_put hspans.inside v k).symm
  · rintro ⟨start, hspans, rfl⟩
    exact ⟨⟨rfl, start, hspans, Memory.getElem?_put hspans.inside v⟩, rfl, rfl⟩

/-- Storing through an operand is possible exactly if the operand can receive a value, and leaves the place
of the machine and its open calls alone. -/
theorem exists_put_iff (c c' : Core) (index : Nat) (v : Int64) :
    (∃ d, c.machine.destination c.memory index = .ok d ∧ c' = c.put v d) ↔
      ∃ o, c.machine.decoder.record.arg? index = some o ∧ c.Stores v c' o ∧
        c'.machine.decoder = c.machine.decoder ∧ c'.machine.stack = c.machine.stack := by
  unfold Machine.destination Machine.operand
  cases c.machine.decoder.record.arg? index with
  | none => simp [bind, Except.bind]
  | some o =>
    simp only [Option.some.injEq, exists_eq_left']
    cases o with
    | register i =>
      rw [stores_register_iff]
      by_cases hi : i.toNat < 16
      · simp [bind, Except.bind, pure, Except.pure, hi]
      · simp [bind, Except.bind, hi]
    | memory width i =>
      rw [stores_memory_iff]
      change (∃ d, (c.machine.register i >>= fun address =>
        c.memory.place address width.bytes >>= fun start => pure (Destination.cells start width)) = .ok d ∧
          c' = c.put v d) ↔ _
      simp only [Except.bind_eq_ok_iff, Except.pure_eq_ok_iff, Machine.register_eq_ok_iff,
        Memory.place_eq_ok_iff_toInt]
      constructor
      · rintro ⟨_, ⟨address, hreg, start, ⟨haddress, hle⟩, rfl⟩, rfl⟩
        exact ⟨start, ⟨⟨address, hreg, haddress⟩, hle⟩, rfl⟩
      · rintro ⟨start, ⟨⟨address, hreg, haddress⟩, hle⟩, rfl⟩
        exact ⟨_, ⟨address, hreg, start, ⟨haddress, hle⟩, rfl⟩, rfl⟩

end Core

namespace Decoder

variable {d d' : Decoder} {a : UInt32}

theorem jump_eq_ok_iff :
    d.jump a = .ok d' ↔ a.toNat < d.code.length ∧ d' = { d with cursor := a.toNat } := by
  unfold jump
  split
  next h => simp [h, eq_comm]
  next h => simp [h]

theorem address_eq_ok_iff : d.address = .ok a ↔ a.toNat = d.cursor := by
  unfold address
  split
  next h =>
    rw [Except.ok.injEq, ← UInt32.toNat_inj, UInt32.toNat_ofNat_of_lt' h]
    exact eq_comm
  next h =>
    have hlt := a.toNat_lt
    simp only [reduceCtorEq, false_iff]
    intro heq
    exact h (heq ▸ hlt)

theorem address_eq_error {cause : DecodeError} (h : d.address = .error cause) :
    cause = .addressOverflow d.cursor := by
  unfold address at h
  split at h
  next => cases h
  next => exact (Except.error.inj h).symm

end Decoder

namespace Core

variable {c c' : Core} {op : Opcode} {o : Operands}

/-- The machine stands behind an instruction of `n` bits that it has read. -/
def past (c : Core) (o : Operands) (n : Nat) : Core :=
  c.moveTo ((c.machine.decoder.skip n).withRecord o) c.machine.stack

theorem spans_past {n : Nat} {width : Width} {base : UInt8} {start : Nat} :
    (c.past o n).Spans width base start ↔ c.Spans width base start :=
  ⟨fun h => ⟨h.base, h.inside⟩, fun h => ⟨h.base, h.inside⟩⟩

theorem holds_past {n : Nat} {s : Operand} {v : Int64} : (c.past o n).Holds s v ↔ c.Holds s v := by
  cases s with
  | register i => exact Iff.rfl
  | memory width i =>
    simp only [Holds, spans_past]
    exact Iff.rfl

theorem stores_past {n : Nat} {s : Operand} {v : Int64} :
    (c.past o n).Stores v c' s ↔ c.Stores v c' s := by
  cases s with
  | register i => exact Iff.rfl
  | memory width i =>
    simp only [Stores, spans_past]
    exact Iff.rfl

section Past

variable {n i : Nat} {args : List Operand} {s : Operand} {v : Int64}

theorem arg?_past (hargs : o.args = args) (hs : args[i]? = some s) :
    (c.past o n).machine.decoder.record.arg? i = some s := by
  rw [← hargs] at hs
  exact hs

theorem readArg_past_iff (hargs : o.args = args) (hs : args[i]? = some s) :
    (c.past o n).machine.readArg c.memory i = .ok v ↔ c.Holds s v := by
  have hread := Machine.readArg_eq_ok_iff (c.past o n) i v
  rw [arg?_past hargs hs] at hread
  simp only [Option.some.injEq, exists_eq_left', holds_past] at hread
  exact hread

theorem exists_put_past_iff (hargs : o.args = args) (hs : args[i]? = some s) :
    (∃ d, (c.past o n).machine.destination c.memory i = .ok d ∧ c' = (c.past o n).put v d) ↔
      c.Stores v c' s ∧ c.GoesOn o (c.machine.decoder.cursor + n) c.machine.stack c' := by
  have hput := exists_put_iff (c.past o n) c' i v
  rw [arg?_past hargs hs] at hput
  simp only [Option.some.injEq, exists_eq_left', stores_past] at hput
  apply hput.trans
  apply and_congr_right
  intro _
  exact ⟨fun h => ⟨h.1, h.2⟩, fun h => ⟨h.decoder, h.stack⟩⟩

theorem eq_moveTo_past_iff (n : Nat) {cursor : Nat} {stack : List UInt32} :
    c' = (c.past o n).moveTo { (c.past o n).machine.decoder with cursor } stack ↔
      c.MovesTo o cursor stack c' := by
  constructor
  · rintro rfl
    exact ⟨⟨rfl, rfl⟩, rfl, rfl⟩
  · intro h
    exact ext_parts h.registers h.stack h.decoder h.memory

end Past

/-- Carried out by the rules that run the machine, an instruction is carried out by the rules on integers and
bytes. -/
theorem Computes.executes (hfits : o.Fits op) {n : Nat} (h : (c.past o n).Computes op c') :
    c.Executes o (c.machine.decoder.cursor + n) c' op := by
  -- the operation fixes the number of operands, and with it the shape of their list
  have hlength := hfits.args_length
  cases h with
  | @load d hd =>
    obtain ⟨a, hargs⟩ := List.length_eq_one_iff.mp hlength
    obtain ⟨ha, hgo⟩ := (exists_put_past_iff hargs rfl).mp ⟨d, hd, rfl⟩
    exact .load hargs ha hgo
  | @move v d hv hd =>
    obtain ⟨s, a, hargs⟩ := List.length_eq_two.mp hlength
    obtain ⟨ha, hgo⟩ := (exists_put_past_iff hargs rfl).mp ⟨d, hd, rfl⟩
    exact .move hargs ((readArg_past_iff hargs rfl).mp hv) ha hgo
  | @combine _ a b v d ha hb hv hd =>
    rw [Opcode.operandCount_of_combine? hv] at hlength
    rw [Opcode.combine?_eq_outcome?] at hv
    obtain ⟨k, hk, rfl⟩ := Option.map_eq_some_iff.mp hv
    obtain ⟨s, t, r, hargs⟩ := List.length_eq_three.mp hlength
    obtain ⟨hr, hgo⟩ := (exists_put_past_iff hargs rfl).mp ⟨d, hd, rfl⟩
    exact .combine hargs ((readArg_past_iff hargs rfl).mp ha)
      ((readArg_past_iff hargs rfl).mp hb) hk hr hgo
  | jump hd =>
    obtain ⟨hin, rfl⟩ := Decoder.jump_eq_ok_iff.mp hd
    exact .jump hin ((eq_moveTo_past_iff n).mp rfl)
  | branch ha hb hd =>
    obtain ⟨s, t, hargs⟩ := List.length_eq_two.mp hlength
    obtain ⟨hin, rfl⟩ := Decoder.jump_eq_ok_iff.mp hd
    exact .branch hargs ((readArg_past_iff hargs rfl).mp ha)
      ((readArg_past_iff hargs rfl).mp hb) hin ((eq_moveTo_past_iff n).mp rfl)
  | fall ha hb hab =>
    obtain ⟨s, t, hargs⟩ := List.length_eq_two.mp hlength
    exact .fall hargs ((readArg_past_iff hargs rfl).mp ha)
      ((readArg_past_iff hargs rfl).mp hb) hab ((eq_moveTo_past_iff n).mp rfl)
  | call hdepth hback hd =>
    obtain ⟨hin, rfl⟩ := Decoder.jump_eq_ok_iff.mp hd
    exact .call (Decoder.address_eq_ok_iff.mp hback) hdepth hin ((eq_moveTo_past_iff n).mp rfl)
  | ret hstack hd =>
    obtain ⟨hin, rfl⟩ := Decoder.jump_eq_ok_iff.mp hd
    exact .ret hstack hin ((eq_moveTo_past_iff n).mp rfl)

theorem Executes.computes {n : Nat} (h : c.Executes o (c.machine.decoder.cursor + n) c' op) :
    (c.past o n).Computes op c' := by
  cases h with
  | load hargs ha hgo =>
    obtain ⟨d, hd, rfl⟩ := (exists_put_past_iff (i := 0) hargs rfl).mpr ⟨ha, hgo⟩
    exact .load hd
  | move hargs hs ha hgo =>
    obtain ⟨d, hd, rfl⟩ := (exists_put_past_iff (i := 1) hargs rfl).mpr ⟨ha, hgo⟩
    exact .move ((readArg_past_iff hargs rfl).mpr hs) hd
  | combine hargs hs ht hk hr hgo =>
    obtain ⟨d, hd, rfl⟩ := (exists_put_past_iff (i := 2) hargs rfl).mpr ⟨hr, hgo⟩
    refine .combine ((readArg_past_iff hargs rfl).mpr hs)
      ((readArg_past_iff hargs rfl).mpr ht) ?_ hd
    rw [Opcode.combine?_eq_outcome?, hk]
    rfl
  | jump hin hgo =>
    rw [(eq_moveTo_past_iff n).mpr hgo]
    exact .jump (Decoder.jump_eq_ok_iff.mpr ⟨hin, rfl⟩)
  | branch hargs hs ht hin hgo =>
    rw [(eq_moveTo_past_iff n).mpr hgo]
    exact .branch ((readArg_past_iff hargs rfl).mpr hs)
      ((readArg_past_iff hargs rfl).mpr ht)
      (Decoder.jump_eq_ok_iff.mpr ⟨hin, rfl⟩)
  | fall hargs hs ht hab hgo =>
    rw [(eq_moveTo_past_iff n).mpr hgo]
    exact .fall ((readArg_past_iff hargs rfl).mpr hs)
      ((readArg_past_iff hargs rfl).mpr ht) hab
  | call hback hdepth hin hgo =>
    rw [(eq_moveTo_past_iff n).mpr hgo]
    exact .call hdepth (Decoder.address_eq_ok_iff.mpr hback)
      (Decoder.jump_eq_ok_iff.mpr ⟨hin, rfl⟩)
  | ret hstack hin hgo =>
    rw [(eq_moveTo_past_iff n).mpr hgo]
    exact .ret hstack (Decoder.jump_eq_ok_iff.mpr ⟨hin, rfl⟩)

/-- The rules that run the machine say what the rules on integers and bytes say. -/
theorem computes_past_iff (hfits : o.Fits op) (n : Nat) :
    (c.past o n).Computes op c' ↔ c.Executes o (c.machine.decoder.cursor + n) c' op :=
  ⟨Computes.executes hfits, Executes.computes⟩

theorem Executes.isComputational {next : Nat} (h : c.Executes o next c' op) :
    op.isComputational = true := by
  cases h with
  | @combine op _ _ _ _ _ _ _ _ _ hn _ _ => cases op <;> first | rfl | cases hn
  | _ => rfl

/-- A fetch that does not find padding has read the instruction whose code stands at the cursor. -/
theorem fetched?_eq_some_iff (hop : op ≠ .padding) {m : Machine} :
    c.machine.fetched? = some (op, m) ↔
      ∃ o, c.machine.decoder.rest.StartsWith op o ∧
        m = (c.past o (Bits.ofInstruction op o).length).machine := by
  rw [Machine.fetched?_eq_some_iff]
  constructor
  · rintro ⟨d, hrun, rfl⟩
    rcases (Reading.instruction_run_eq_ok _ _ _).mp hrun with ⟨-, rfl, -⟩ | ⟨-, hmem, o, hfits, hpre, rfl⟩
    · exact absurd rfl hop
    · exact ⟨o, ⟨hmem, hfits, hpre⟩, rfl⟩
  · rintro ⟨o, hstart, rfl⟩
    exact ⟨_, (Decoder.fetch_eq_iff _ _ _).mp (Decoder.fetch_of_startsWith hstart), rfl⟩

/-- A step that completes an instruction has come to one, and does what the rules of the instruction say. -/
theorem exists_executes_of_step (h : c.step = (.ok none, c')) :
    c.machine.decoder.cursor < UInt32.size ∧
      ∃ op o, c.machine.decoder.rest.StartsWith op o ∧
        c.Executes o (c.machine.decoder.cursor + (Bits.ofInstruction op o).length) c' op := by
  obtain ⟨address, op, m, haddress, hm, ⟨hop, -, hc⟩ | ⟨-, hnone, -⟩⟩ := (step_eq_ok_iff c c' _).mp h
  · obtain ⟨o, hstart, rfl⟩ := (fetched?_eq_some_iff (Opcode.ne_padding hop)).mp hm
    refine ⟨?_, op, o, hstart, (computes_past_iff hstart.fits _).mp hc⟩
    rw [← Decoder.address_eq_ok_iff.mp haddress]
    exact address.toNat_lt
  · cases hnone

end Core

end PrefixVM
