import PrefixVM.Asm.Layout
import PrefixVM.Proofs.Decoding
import PrefixVM.Proofs.Grammar

/-!
The layout of assembled code. The bits of a program are those of its instructions one after the other, and
the place of an instruction or a label is the total length of the instructions before it. Both passes of
the assembler agree on these places, so that a label stands for the place at which its definition is met.
-/
namespace PrefixVM.Asm

def totalLength : List Instruction → Nat
  | [] => 0
  | i :: rest => i.length + totalLength rest

@[simp] theorem totalLength_append (a b : List Instruction) :
    totalLength (a ++ b) = totalLength a + totalLength b := by
  induction a with
  | nil => simp [totalLength]
  | cons i rest ih => rw [List.cons_append, totalLength, totalLength, ih, Nat.add_assoc]

@[simp] theorem instructions_append (a b : List Item) :
    instructions (a ++ b) = instructions a ++ instructions b :=
  List.filterMap_append

@[simp] theorem instructions_label (line : Nat) (name : String) (rest : List Item) :
    instructions (.label line name :: rest) = instructions rest := rfl

@[simp] theorem instructions_instruction (i : Instruction) (rest : List Item) :
    instructions (.instruction i :: rest) = i :: instructions rest := rfl

/-- The bit offset of the instruction at position `k`; behind the last one it is the total length. -/
def offset (code : List Instruction) (k : Nat) : Nat :=
  totalLength (code.take k)

theorem offset_succ {code : List Instruction} {k : Nat} {i : Instruction} (h : code[k]? = some i) :
    offset code (k + 1) = offset code k + i.length := by
  rw [offset, offset, List.take_add_one, h, totalLength_append]
  rfl

theorem offset_le (code : List Instruction) (k : Nat) : offset code k ≤ totalLength code := by
  conv_rhs => rw [← List.take_append_drop k code]
  rw [totalLength_append, offset]
  exact Nat.le_add_right _ _

namespace Instruction

def resolved (i : Instruction) (labels : Labels) : Operands :=
  i.operands (match i.resolve labels with
    | .ok address => address
    | .error _ => 0)

theorem resolve_of_hasAddress_eq_false {i : Instruction} (labels : Labels)
    (h : i.opcode.hasAddress = false) : i.resolve labels = .ok 0 := by
  unfold resolve
  rw [h]

theorem WellFormed.fits {i : Instruction} (hi : i.WellFormed) (labels : Labels) :
    (i.resolved labels).Fits i.opcode where
  args_length := hi.args_length
  registers := hi.registers
  address h := by
    unfold resolved
    rw [resolve_of_hasAddress_eq_false labels h]
    rfl
  constant h := by
    simp only [resolved, operands]
    rw [if_neg (by rw [h]; decide)]

end Instruction

def codeBits (labels : Labels) (code : List Instruction) : Bits :=
  code.flatMap fun i => Bits.ofInstruction i.opcode (i.resolved labels)

theorem length_codeBits (labels : Labels) (code : List Instruction) :
    (codeBits labels code).length = totalLength code := by
  induction code with
  | nil => rfl
  | cons i rest ih =>
    rw [codeBits, List.flatMap_cons, List.length_append, totalLength, Instruction.resolved,
      length_ofInstruction]
    exact congrArg (i.length + ·) ih

theorem writeItems_eq_ok_iff (labels : Labels) (items : List Item) (w w' : Writer) :
    items.foldlM (writeItem labels) w = .ok w' ↔
      (∀ i ∈ instructions items, ∃ address, i.resolve labels = .ok address) ∧
        w' = w.append (codeBits labels (instructions items)) := by
  induction items generalizing w with
  | nil =>
    rw [List.foldlM_nil, Except.pure_eq_ok_iff]
    simp [instructions, codeBits, Writer.append, eq_comm]
  | cons item rest ih =>
    rw [List.foldlM_cons, Except.bind_eq_ok_iff]
    cases item with
    | label line name =>
      simp only [writeItem, Except.ok.injEq, exists_eq_left', instructions_label]
      exact ih w
    | instruction i =>
      simp only [writeItem, Except.bind_eq_ok_iff, Except.pure_eq_ok_iff, instructions_instruction,
        List.forall_mem_cons]
      constructor
      · rintro ⟨w₁, ⟨address, haddress, rfl⟩, hrest⟩
        obtain ⟨hresolve, rfl⟩ := (ih _).mp hrest
        refine ⟨⟨⟨address, haddress⟩, hresolve⟩, ?_⟩
        simp [codeBits, Writer.append, Instruction.resolved, haddress]
      · rintro ⟨⟨⟨address, haddress⟩, hresolve⟩, rfl⟩
        refine ⟨_, ⟨address, haddress, rfl⟩, (ih _).mpr ⟨hresolve, ?_⟩⟩
        simp [codeBits, Writer.append, Instruction.resolved, haddress]

/-- Encoding succeeds when every label can be resolved, and packs the bits of the instructions. -/
theorem encode_eq_ok_iff (items : List Item) (code : Bytes) :
    encode items = .ok code ↔
      (∀ i ∈ instructions items, ∃ address, i.resolve (Labels.ofItems 0 items) = .ok address) ∧
        code = Bits.pack (codeBits (Labels.ofItems 0 items) (instructions items)) := by
  unfold encode
  simp only [Except.bind_eq_ok_iff, Except.pure_eq_ok_iff, writeItems_eq_ok_iff]
  constructor
  · rintro ⟨w, ⟨hresolve, rfl⟩, rfl⟩
    exact ⟨hresolve, by simp [Writer.toBytes]⟩
  · rintro ⟨hresolve, rfl⟩
    exact ⟨_, ⟨hresolve, rfl⟩, by simp [Writer.toBytes]⟩

namespace Labels

theorem foldl_find?_eq_or (labels : Labels) (name : String) (found : Option UInt32) :
    labels.foldl (fun found entry => if entry.1 = name then some entry.2 else found) found =
      (find? labels name).or found := by
  unfold find?
  induction labels generalizing found with
  | nil => simp
  | cons entry rest ih =>
    rw [List.foldl_cons, List.foldl_cons, ih, ih (if entry.1 = name then some entry.2 else none)]
    by_cases h : entry.1 = name
    · simp only [h, if_true]
      cases rest.foldl (fun found entry => if entry.1 = name then some entry.2 else found) none <;> rfl
    · simp only [h, if_false, Option.or_none]

theorem find?_cons (entry : String × UInt32) (labels : Labels) (name : String) :
    find? (entry :: labels) name =
      (find? labels name).or (if entry.1 = name then some entry.2 else none) := by
  rw [find?, List.foldl_cons, foldl_find?_eq_or]

theorem not_mem_labelNames {position : Nat} {items : List Item} {name : String}
    (h : find? (ofItems position items) name = none) : name ∉ labelNames items := by
  induction items generalizing position with
  | nil => exact List.not_mem_nil
  | cons item rest ih =>
    cases item with
    | label line other =>
      rw [ofItems, find?_cons, Option.or_eq_none_iff] at h
      obtain ⟨hrest, hother⟩ := h
      have hne : name ≠ other := by
        intro heq
        rw [if_pos heq.symm] at hother
        cases hother
      exact List.not_mem_cons_of_ne_of_not_mem hne (ih hrest)
    | instruction i => exact ih h

/-- A name stands for the place of its last definition. -/
theorem find?_ofItems_eq_some (position : Nat) (items : List Item) (name : String) (address : UInt32)
    (h : find? (ofItems position items) name = some address) :
    ∃ before line after, items = before ++ .label line name :: after ∧ name ∉ labelNames after ∧
      address = UInt32.ofNat (position + totalLength (instructions before)) := by
  induction items generalizing position with
  | nil => cases h
  | cons item rest ih =>
    cases item with
    | label line other =>
      rw [ofItems, find?_cons, Option.or_eq_some_iff] at h
      rcases h with h | ⟨hnone, h⟩
      · -- a later definition wins
        obtain ⟨before, line', after, rfl, hlast, rfl⟩ := ih position h
        exact ⟨.label line other :: before, line', after, rfl, hlast, by rw [instructions_label]⟩
      · split at h
        next heq =>
          obtain rfl := Option.some.inj h
          obtain rfl := heq
          exact ⟨[], line, rest, rfl, not_mem_labelNames hnone, rfl⟩
        next => cases h
    | instruction i =>
      rw [ofItems] at h
      obtain ⟨before, line', after, rfl, hlast, rfl⟩ := ih (position + i.length) h
      refine ⟨.instruction i :: before, line', after, rfl, hlast, ?_⟩
      rw [instructions_instruction, totalLength, Nat.add_assoc]

end Labels

/-- Where an instruction leads: to the given bit offset or to the place at which its label is defined, if
its operation has an address at all. -/
def Instruction.LeadsTo (items : List Item) (i : Instruction) (address : UInt32) : Prop :=
  if i.opcode.hasAddress then
    match i.target with
    | none => False
    | some (.offset bits) => address = bits
    | some (.label name) => ∃ before line after, items = before ++ .label line name :: after ∧
        address.toNat = totalLength (instructions before)
  else address = 0

theorem Instruction.find?_of_resolve {i : Instruction} {labels : Labels} {name : String}
    {address : UInt32} (hop : i.opcode.hasAddress = true) (ht : i.target = some (.label name))
    (h : i.resolve labels = .ok address) : labels.find? name = some address := by
  simp only [resolve, hop, ht] at h
  split at h
  next found hfound => rw [hfound, Except.ok.inj h]
  next => cases h

theorem Instruction.WellFormed.leadsTo {i : Instruction} (hi : i.WellFormed) (items : List Item)
    (address : UInt32) (hsize : totalLength (instructions items) < UInt32.size)
    (hresolve : i.resolve (Labels.ofItems 0 items) = .ok address) : i.LeadsTo items address := by
  have htarget := hi.target
  have h := hresolve
  unfold LeadsTo
  unfold resolve at h
  cases hop : i.opcode.hasAddress with
  | false =>
    rw [hop] at h
    exact (Except.ok.inj h).symm
  | true =>
    rw [hop, Option.isSome_iff_exists] at htarget
    obtain ⟨t, ht⟩ := htarget
    rw [hop, ht] at h
    simp only [if_true, ht]
    cases t with
    | offset bits => exact (Except.ok.inj h).symm
    | label name =>
      have hfound := find?_of_resolve hop ht hresolve
      obtain ⟨before, line, after, rfl, -, rfl⟩ := Labels.find?_ofItems_eq_some _ _ _ _ hfound
      refine ⟨before, line, after, rfl, ?_⟩
      rw [instructions_append, totalLength_append] at hsize
      rw [Nat.zero_add, UInt32.toNat_ofNat_of_lt' (by omega)]

theorem assemble_eq_ok {text : String} {a : Assembly} (h : assemble text = .ok a) :
    ∃ source, Source.parse text = .ok source ∧ encode source.code = .ok a.image.code := by
  unfold assemble at h
  obtain ⟨source, hsource, h⟩ := (Except.bind_eq_ok_iff _ _ _).mp h
  obtain ⟨code, hcode, h⟩ := (Except.bind_eq_ok_iff _ _ _).mp h
  refine ⟨source, hsource, ?_⟩
  rw [hcode]
  split at h
  · dsimp only at h
    split at h
    · obtain rfl := (Except.pure_eq_ok_iff _ _).mp h
      rfl
    · obtain rfl := (Except.pure_eq_ok_iff _ _).mp h
      rfl
  · obtain rfl := (Except.pure_eq_ok_iff _ _).mp h
    rfl

/-- The code of an assembled source: the bits of its instructions, then fewer than eight zeros. -/
theorem bits_machineCode {text : String} {source : Source} {a : Assembly}
    (hsource : Source.parse text = .ok source) (h : assemble text = .ok a) :
    (∀ i ∈ instructions source.code,
        ∃ address, i.resolve (Labels.ofItems 0 source.code) = .ok address) ∧
      a.image.machineCode.bits = codeBits (Labels.ofItems 0 source.code) (instructions source.code) ++
        List.replicate (Bits.slack (totalLength (instructions source.code))) false := by
  obtain ⟨source', hsource', hcode⟩ := assemble_eq_ok h
  obtain rfl : source = source' := Except.ok.inj (hsource.symm.trans hsource')
  obtain ⟨hresolve, hcode⟩ := (encode_eq_ok_iff _ _).mp hcode
  refine ⟨hresolve, ?_⟩
  change (Stream.ofCode a.image.code).toBits = _
  rw [hcode, Stream.toBits_ofCode_pack, length_codeBits]

end PrefixVM.Asm
