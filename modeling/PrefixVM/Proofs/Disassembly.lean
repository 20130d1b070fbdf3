import Mathlib
import PrefixVM.Proofs.Offsets
import PrefixVM.Proofs.Tiling

/-!
Disassembling what was assembled. The listing of an assembled image has one entry for each instruction of
the source, at its place and with its operands; nothing is made out of the padding. The end of the stream
is found at every alignment, since the last instruction is followed by fewer than eight zeros.
-/
namespace PrefixVM.Asm

def Instruction.entry (labels : Labels) (start : Nat) (i : Instruction) : Entry :=
  { offset := UInt32.ofNat start, opcode := i.opcode, operands := i.resolved labels }

def entriesFrom (labels : Labels) : (start : Nat) → List Instruction → List Entry
  | _, [] => []
  | start, i :: rest => i.entry labels start :: entriesFrom labels (start + i.length) rest

theorem length_entriesFrom (labels : Labels) (start : Nat) (code : List Instruction) :
    (entriesFrom labels start code).length = code.length := by
  induction code generalizing start with
  | nil => rfl
  | cons i rest ih => rw [entriesFrom, List.length_cons, List.length_cons, ih]

theorem flatMap_bits_entriesFrom (labels : Labels) (start : Nat) (code : List Instruction) :
    (entriesFrom labels start code).flatMap Entry.bits = codeBits labels code := by
  induction code generalizing start with
  | nil => rfl
  | cons i rest ih =>
    rw [entriesFrom, List.flatMap_cons, ih]
    rfl

theorem getElem?_entriesFrom (labels : Labels) (start k : Nat) (code : List Instruction) :
    (entriesFrom labels start code)[k]? =
      code[k]?.map (Instruction.entry labels (start + offset code k)) := by
  induction code generalizing start k with
  | nil => rfl
  | cons i rest ih =>
    match k with
    | 0 => rfl
    | k + 1 =>
      rw [entriesFrom, List.getElem?_cons_succ, ih, List.getElem?_cons_succ, offset, offset,
        List.take_succ_cons, totalLength, Nat.add_assoc]

theorem tiles_entriesFrom (labels : Labels) (start : Nat) (code : List Instruction)
    (hsize : start + totalLength code < UInt32.size) :
    Listing.Tiles start (entriesFrom labels start code) := by
  induction code generalizing start with
  | nil => trivial
  | cons i rest ih =>
    rw [totalLength] at hsize
    have hlen : (i.entry labels start).bits.length = i.length := length_ofInstruction i _
    refine ⟨UInt32.toNat_ofNat_of_lt' (by omega), ?_⟩
    rw [hlen]
    exact ih (start + i.length) (by omega)

theorem sound_entriesFrom (labels : Labels) (start : Nat) (code : List Instruction)
    (hcode : ∀ i ∈ code, i.WellFormed) : ∀ e ∈ entriesFrom labels start code, e.Sound := by
  induction code generalizing start with
  | nil => simp [entriesFrom]
  | cons i rest ih =>
    obtain ⟨hi, hrest⟩ := List.forall_mem_cons.mp hcode
    exact List.forall_mem_cons.mpr
      ⟨⟨hi.opcode, hi.known, hi.fits labels⟩, ih (start + i.length) hrest⟩

theorem decode_image {text : String} {source : Source} {a : Assembly}
    (hsource : Source.parse text = .ok source) (hasm : assemble text = .ok a)
    (hsize : totalLength (instructions source.code) < UInt32.size) :
    a.image.decode = .ok (entriesFrom (Labels.ofItems 0 source.code) 0 (instructions source.code)) := by
  obtain ⟨-, hbits⟩ := bits_machineCode hsource hasm
  have hwf := Source.parse_wellFormed hsource
  have hsound := sound_entriesFrom (Labels.ofItems 0 source.code) 0 _ hwf.instructions
  have hspan : Listing.span (entriesFrom (Labels.ofItems 0 source.code) 0 (instructions source.code)) =
      totalLength (instructions source.code) := by
    rw [Listing.span, flatMap_bits_entriesFrom, length_codeBits]
  rw [Image.decode, Listing.decode_eq_ok_iff _ _ fun e he => (hsound e he).known, hspan,
    flatMap_bits_entriesFrom, hbits]
  refine ⟨hsound, tiles_entriesFrom _ _ _ (by omega), List.prefix_append _ _, hsize, ?_⟩
  -- behind the instructions stand fewer than eight zeros
  apply Code.isPadding_of_zeros _ _ (Bits.slack (totalLength (instructions source.code)))
  · exact Nat.mod_lt _ (by decide)
  · rw [hbits, List.drop_append_of_le_length (by rw [length_codeBits]), List.drop_of_length_le
      (by rw [length_codeBits]), List.nil_append]

/-- An entry shows an instruction of a source: it stands at the given offset and has the operation, the
operands, the constant and the address of the instruction. -/
structure Instruction.ShownBy (items : List Item) (offset : Nat) (i : Instruction) (e : Entry) : Prop where
  offset : e.offset.toNat = offset
  opcode : e.opcode = i.opcode
  args : e.operands.args = i.args
  constant : e.operands.constant = if i.opcode.hasConstant then i.constant else 0
  address : i.LeadsTo items e.operands.address

/-- Disassembly recovers what was assembled: one entry for each instruction, in order. -/
theorem decode_assemble (text : String) (source : Source) (a : Assembly)
    (hsource : Source.parse text = .ok source) (hasm : assemble text = .ok a)
    (hsize : totalLength (instructions source.code) < UInt32.size) :
    ∃ entries, a.image.decode = .ok entries ∧
      entries.length = (instructions source.code).length ∧
      ∀ (k : Nat) (i : Instruction), (instructions source.code)[k]? = some i →
        ∃ e, entries[k]? = some e ∧
          i.ShownBy source.code (totalLength ((instructions source.code).take k)) e := by
  obtain ⟨hresolve, -⟩ := bits_machineCode hsource hasm
  have hwf := Source.parse_wellFormed hsource
  refine ⟨_, decode_image hsource hasm hsize, length_entriesFrom _ _ _, ?_⟩
  intro k i hi
  have hmem : i ∈ instructions source.code := List.mem_of_getElem? hi
  obtain ⟨address, haddress⟩ := hresolve i hmem
  refine ⟨_, by rw [getElem?_entriesFrom, hi, Option.map_some], ?_, rfl, rfl, rfl, ?_⟩
  · have hle := offset_le (instructions source.code) k
    rw [Nat.zero_add]
    exact UInt32.toNat_ofNat_of_lt' (by omega)
  · have hop : (i.resolved (Labels.ofItems 0 source.code)).address = address := by
      rw [Instruction.resolved, haddress]
      rfl
    change i.LeadsTo source.code (i.resolved (Labels.ofItems 0 source.code)).address
    rw [hop]
    exact (hwf.instructions i hmem).leadsTo source.code address hsize haddress

/-- A backward jump, and a last instruction of four bits that ends inside a byte. -/
theorem decode_assemble_short_last :
    ∃ source a, Source.parse "start:\njumpEqual start, r1, word[r2]\nret" = .ok source ∧
      assemble "start:\njumpEqual start, r1, word[r2]\nret" = .ok a ∧
      totalLength (instructions source.code) = 53 ∧
      ∃ entries, a.image.decode = .ok entries ∧ entries.length = 2 ∧
        ∃ e, entries[1]? = some e ∧
          Instruction.ShownBy source.code 49 ⟨3, .ret, none, 0, []⟩ e := by
  have hsource : Source.parse "start:\njumpEqual start, r1, word[r2]\nret" = .ok
      { code := [.label 1 "start",
          .instruction ⟨2, .jumpEqual, some (.label "start"), 0, [.register 1, .memory .word 2]⟩,
          .instruction ⟨3, .ret, none, 0, []⟩] } := by
    cbv
  have hasm : assemble "start:\njumpEqual start, r1, word[r2]\nret" = .ok
      { image := Image.make [112, 0, 0, 0, 2, 50, 104] [] 0 } := by
    cbv
  obtain ⟨entries, hdecode, hlength, hshown⟩ := decode_assemble _ _ _ hsource hasm (by decide)
  exact ⟨_, _, hsource, hasm, rfl, entries, hdecode, hlength, hshown 1 _ rfl⟩

end PrefixVM.Asm
