import Mathlib
import PrefixVM.Proofs.Simulation

/-!
The image of a source and the source itself. A source whose targets are labels and that ends with a halt is
held by its image, and the two machines go through corresponding states from their starts on.
-/
namespace PrefixVM.Asm

theorem labelIndex_append {name : String} {before : List Item} (line : Nat) (after : List Item)
    (h : name ∉ labelNames before) :
    labelIndex name (before ++ .label line name :: after) = (instructions before).length := by
  induction before with
  | nil => exact if_pos rfl
  | cons item rest ih =>
    cases item with
    | label line' other =>
      obtain ⟨hne, hrest⟩ := List.ne_and_not_mem_of_not_mem_cons h
      rw [List.cons_append, labelIndex, if_neg (Ne.symm hne), ih hrest, instructions_label]
    | instruction i =>
      rw [List.cons_append, labelIndex, ih h, instructions_instruction, List.length_cons]

theorem offset_instructions_append (before after : List Item) :
    offset (instructions (before ++ after)) (instructions before).length =
      totalLength (instructions before) := by
  rw [offset, instructions_append, List.take_left]

theorem labelNames_append (before after : List Item) :
    labelNames (before ++ after) = labelNames before ++ labelNames after :=
  List.filterMap_append

/-- In a well-formed source that ends with an instruction, a label leads to an instruction, and to the place
that the assembler gives it. -/
theorem labelIndex_spec {source : Source} (hwf : source.WellFormed) {last : Instruction}
    (hlast : source.code.getLast? = some (.instruction last)) {name : String} {address : UInt32}
    (h : Labels.find? (Labels.ofItems 0 source.code) name = some address) :
    labelIndex name source.code < (instructions source.code).length ∧
      address = UInt32.ofNat (offset (instructions source.code) (labelIndex name source.code)) := by
  obtain ⟨before, line, after, hcode, -, rfl⟩ := Labels.find?_ofItems_eq_some _ _ _ _ h
  have hbefore : name ∉ labelNames before := by
    have hnodup := hwf.labels
    rw [hcode, labelNames_append] at hnodup
    exact fun hmem => (List.nodup_append.mp hnodup).2.2 _ hmem _ List.mem_cons_self rfl
  -- the last item is an instruction, so it stands behind the label
  have hafter : last ∈ instructions after := by
    rw [hcode, List.getLast?_append_cons] at hlast
    cases after with
    | nil => cases hlast
    | cons item rest =>
      rw [List.getLast?_cons_cons] at hlast
      exact List.mem_filterMap.mpr ⟨_, List.mem_of_getLast? hlast, rfl⟩
  have hpos := List.length_pos_of_mem hafter
  rw [hcode, labelIndex_append line after hbefore, offset_instructions_append]
  refine ⟨?_, by rw [Nat.zero_add]⟩
  rw [instructions_append, List.length_append, instructions_label]
  omega

/-- The targets of a source are labels, and its last item halts. -/
structure Source.Closed (source : Source) : Prop where
  labels : ∀ i ∈ instructions source.code, ∀ bits, i.target ≠ some (.offset bits)
  last : ∃ i, source.code.getLast? = some (.instruction i) ∧ i.opcode = .halt

/-- An image holds the source that it was assembled from. -/
theorem holds_assemble {text : String} {source : Source} {a : Assembly}
    (hsource : Source.parse text = .ok source) (hasm : assemble text = .ok a) (hclosed : source.Closed)
    (hsize : totalLength (instructions source.code) < UInt32.size) :
    Holds source.code a.image.machineCode := by
  have hwf := Source.parse_wellFormed hsource
  obtain ⟨hresolve, hbits⟩ := bits_machineCode hsource hasm
  obtain ⟨last, hlast, hhalt⟩ := hclosed.last
  obtain ⟨init, hinit⟩ := List.getLast?_eq_some_iff.mp hlast
  have hlast' : (instructions source.code).getLast? = some last := by
    rw [hinit, instructions_append]
    exact List.getLast?_concat
  have hpos : 0 < (instructions source.code).length :=
    List.length_pos_of_mem (List.mem_of_getLast? hlast')
  -- what is known of an instruction that leads somewhere
  have hlabel : ∀ i ∈ instructions source.code, ∀ name, i.target = some (.label name) →
      labelIndex name source.code < (instructions source.code).length ∧
        (i.resolved (Labels.ofItems 0 source.code)).address =
          UInt32.ofNat (offset (instructions source.code) (labelIndex name source.code)) := by
    intro i hi name ht
    have hop : i.opcode.hasAddress = true := by
      rw [← (hwf.instructions i hi).target, ht]
      rfl
    obtain ⟨address, haddress⟩ := hresolve i hi
    have hspec := labelIndex_spec hwf hlast (Instruction.find?_of_resolve hop ht haddress)
    refine ⟨hspec.1, ?_⟩
    rw [Instruction.resolved, haddress]
    exact hspec.2
  refine ⟨hwf.instructions, hbits, hsize, ?_, ?_, last, hlast', hhalt⟩
  · intro i hi
    unfold Instruction.targetIndex
    split
    next name ht => exact (hlabel i hi name ht).1
    next => exact hpos
  · intro i hi hop
    obtain ⟨t, ht⟩ : ∃ t, i.target = some t := by
      rw [← Option.isSome_iff_exists, (hwf.instructions i hi).target, hop]
    cases t with
    | offset bits => exact absurd ht (hclosed.labels i hi bits)
    | label name =>
      simp only [Instruction.targetIndex, ht]
      exact (hlabel i hi name ht).2

/-- A state of the image machine corresponds to a state of the source machine: registers and memory agree,
the cursor is the bit offset of the next instruction, the return addresses are the offsets of the stacked
positions, and the record shows the instruction that was fetched last. -/
structure Corresponds (items : List Item) (code : Code) (s : State) (c : Core) : Prop where
  registers : c.machine.registers = s.registers
  memory : c.memory = s.memory
  code : c.machine.decoder.code = code
  cursor : c.machine.decoder.cursor = offset (instructions items) s.counter
  stack : c.machine.stack.map UInt32.toNat = s.stack.map (offset (instructions items))
  args : c.machine.decoder.record.args = s.current.elim [] Instruction.args
  constant : c.machine.decoder.record.constant = s.current.elim 0 Instruction.constant
  address : c.machine.decoder.record.address.toNat =
    offset (instructions items) (s.current.elim 0 (Instruction.targetIndex items))

theorem corresponds_lower {items : List Item} {code : Code} {s : State} (h : Holds items code)
    (hv : s.Valid items) : Corresponds items code s (s.lower items code) where
  registers := rfl
  memory := rfl
  code := rfl
  cursor := rfl
  stack := by
    change (s.stack.map fun k => UInt32.ofNat (offset (instructions items) k)).map UInt32.toNat = _
    rw [List.map_map]
    exact List.map_congr_left fun k _ => h.toNat_offset k
  args := by
    change (s.record items).args = _
    cases hs : s.current <;> simp only [State.record, hs, Option.elim_none, Option.elim_some]
  constant := by
    change (s.record items).constant = _
    cases hs : s.current with
    | none => simp only [State.record, hs, Option.elim_none]
    | some i =>
      have hwf := h.wellFormed i (hv.current i hs)
      cases hop : i.opcode.hasConstant with
      | true => simp only [State.record, hs, hop, if_true, Option.elim_some]
      | false =>
        simp only [State.record, hs, hop, Bool.false_eq_true, if_false, Option.elim_some]
        exact (hwf.constant hop).symm
  address := by
    change (s.record items).address.toNat = _
    rw [record_address h hv, h.toNat_offset]
    rfl

/-- Assembling preserves meaning: whatever happens to the two machines from their starts on, they answer
alike and reach corresponding states, and from there they run alike. -/
theorem respondAll_assemble (text : String) (source : Source) (a : Assembly)
    (hsource : Source.parse text = .ok source) (hasm : assemble text = .ok a) (hclosed : source.Closed)
    (hsize : totalLength (instructions source.code) < UInt32.size) (memory : Memory)
    (stimuli : List Stimulus) :
    let c := Core.respondAll { machine := Machine.start a.image.machineCode, memory } stimuli
    let s := State.respondAll source.code { memory } stimuli
    c.1 = s.1 ∧ Corresponds source.code a.image.machineCode s.2 c.2 ∧
      ∀ fuel, Option.Rel
        (fun r r' => r'.1 = r.1 ∧ Corresponds source.code a.image.machineCode r.2 r'.2)
        (s.2.run source.code fuel) (c.2.run fuel) := by
  have h := holds_assemble hsource hasm hclosed hsize
  have hstart : State.Valid source.code { memory } :=
    ⟨Nat.zero_le _, List.forall_mem_nil _, fun i hi => (by cases hi)⟩
  obtain ⟨hrespond, hvalid⟩ := respondAll_lower h hstart stimuli
  intro c s
  -- the start of the image machine is the lowered start of the source machine
  have hc : c = (s.1, s.2.lower source.code a.image.machineCode) := hrespond
  rw [hc]
  refine ⟨rfl, corresponds_lower h hvalid, ?_⟩
  intro fuel
  rw [run_lower h hvalid fuel]
  cases hrun : s.2.run source.code fuel with
  | none => exact .none
  | some r => exact .some ⟨rfl, corresponds_lower h (valid_run h hvalid fuel hrun)⟩

/-- A loop that creates a thread at its own start: the thread is split off and goes round once more. -/
theorem respondAll_assemble_thread :
    ∃ source a, Source.parse "loop:\njumpEqual done, r0, r1\nhlt\ndone:\ncreateThread loop, r2\nhlt" =
        .ok source ∧
      assemble "loop:\njumpEqual done, r0, r1\nhlt\ndone:\ncreateThread loop, r2\nhlt" = .ok a ∧
      source.Closed ∧ totalLength (instructions source.code) = 99 ∧
      (Core.respondAll { machine := Machine.start a.image.machineCode, memory := Memory.zeros 4 }
          [.step, .step, .store 0 1, .fork, .step]).1 =
        [.stepped (.ok none), .stepped (.ok (some .createThread)), .done (.ok ()), .done (.ok ()),
          .stepped (.ok none)] := by
  have hsource : Source.parse
      "loop:\njumpEqual done, r0, r1\nhlt\ndone:\ncreateThread loop, r2\nhlt" = .ok
      { code := [.label 1 "loop",
          .instruction ⟨2, .jumpEqual, some (.label "done"), 0, [.register 0, .register 1]⟩,
          .instruction ⟨3, .halt, none, 0, []⟩,
          .label 4 "done",
          .instruction ⟨5, .createThread, some (.label "loop"), 0, [.register 2]⟩,
          .instruction ⟨6, .halt, none, 0, []⟩] } := by
    cbv
  have hasm : assemble "loop:\njumpEqual done, r0, r1\nhlt\ndone:\ncreateThread loop, r2\nhlt" = .ok
      { image := Image.make [113, 96, 0, 0, 0, 17, 106, 0, 0, 0, 0, 18, 192] [] 0 } := by
    cbv
  refine ⟨_, _, hsource, hasm, ?closed, rfl,
    (respondAll_assemble _ _ _ hsource hasm ?closed (by decide) _ _).1.trans rfl⟩
  refine ⟨?_, _, rfl, rfl⟩
  intro i hi bits
  simp only [instructions, Item.instruction?, List.filterMap_cons, List.filterMap_nil, List.mem_cons,
    List.not_mem_nil, or_false] at hi
  rcases hi with rfl | rfl | rfl | rfl <;> simp

end PrefixVM.Asm
