import Mathlib
import PrefixVM.Proofs.Fetching
import PrefixVM.Proofs.Simulation

/-!
Where jumps, calls and returns lead. The places that a machine returns to lie inside its code or at the end
of it, whatever its steps and the services between them do, and so do the labels of a source. A jump to the
very end of the stream fails, which concerns what stands behind the last instruction of a code without
padding; every other destination is reached. Behind the last instruction the machine finds padding.
-/
namespace PrefixVM

/-- Whatever becomes of a computation, it ends in a state of a certain kind. -/
def EndsIn {ε σ α : Type} (P : σ → Prop) (x : EStateM ε σ α) (s : σ) : Prop :=
  match x.run s with
  | .ok _ s' => P s'
  | .error _ s' => P s'

section EndsIn

variable {ε σ α β : Type} {P : σ → Prop}

theorem EndsIn.bind {x : EStateM ε σ α} {f : α → EStateM ε σ β} {s : σ} (hx : EndsIn P x s)
    (hf : ∀ a s₁, x.run s = .ok a s₁ → P s₁ → EndsIn P (f a) s₁) : EndsIn P (x >>= f) s := by
  unfold EndsIn at hx ⊢
  cases hrun : x.run s with
  | ok a s₁ =>
    rw [hrun] at hx
    rw [EStateM.run_bind_of_ok hrun]
    exact hf a s₁ hrun hx
  | error e s₁ =>
    rw [hrun] at hx
    rw [EStateM.run_bind_of_error hrun]
    exact hx

end EndsIn

namespace Core

/-- The machine stands inside a code, and so do the places that it returns to. -/
structure Inside (c : Core) (code : Code) : Prop where
  decoder : c.machine.decoder.Within code
  stack : ∀ address ∈ c.machine.stack, address.toNat ≤ code.length

theorem inside_start (code : Code) (memory : Memory) :
    Inside { machine := Machine.start code, memory } code :=
  ⟨Decoder.within_start code, List.forall_mem_nil _⟩

theorem Inside.put {c : Core} {code : Code} (h : c.Inside code) (v : Int64) (d : Destination) :
    (c.put v d).Inside code := by
  obtain ⟨hdecoder, hstack⟩ := decoder_put c v d
  exact ⟨hdecoder ▸ h.decoder, hstack ▸ h.stack⟩

end Core

namespace Exec

/-- A computation keeps the machine inside its code, also when it fails. -/
abbrev StaysInside {α : Type} (code : Code) (x : Exec α) (c : Core) : Prop :=
  EndsIn (·.Inside code) x c

variable {c : Core} {code : Code}

theorem arg_bind_staysInside {β : Type} (h : c.Inside code) (index : Nat) {f : Int64 → Exec β}
    (hf : ∀ v, StaysInside code (f v) c) : StaysInside code (arg index >>= f) c := by
  apply EndsIn.bind
  · unfold EndsIn
    rw [arg_run]
    cases c.machine.readArg c.memory index <;> exact h
  · intro v c₁ hrun _
    obtain ⟨-, rfl⟩ := (arg_run_eq_ok c c₁ index v).mp hrun
    exact hf v

theorem setArg_staysInside (h : c.Inside code) (index : Nat) (v : Int64) :
    StaysInside code (setArg index v) c := by
  unfold StaysInside EndsIn
  rw [setArg_run]
  cases c.machine.destination c.memory index with
  | ok d => exact h.put v d
  | error fault => exact h

theorem jump_staysInside (h : c.Inside code) (target : UInt32) :
    StaysInside code (jump target) c := by
  unfold StaysInside EndsIn
  rw [jump_run]
  cases hjump : c.machine.decoder.jump target with
  | ok d => exact ⟨h.decoder.jump hjump, h.stack⟩
  | error cause => exact h

theorem jump_target_staysInside (h : c.Inside code) : StaysInside code (target >>= jump) c :=
  jump_staysInside h c.machine.decoder.record.address

theorem here_staysInside (h : c.Inside code) : StaysInside code here c := by
  unfold StaysInside EndsIn
  rw [here_run]
  cases c.machine.decoder.address <;> exact h

theorem binary_staysInside (h : c.Inside code) (f : Int64 → Int64 → Except Fault Int64) :
    StaysInside code (binary f) c := by
  apply arg_bind_staysInside h
  intro a
  apply arg_bind_staysInside h
  intro b
  split
  next v _ => exact setArg_staysInside h 2 v
  next => exact h

/-- The place behind an instruction lies inside the code, so a call may remember it. -/
theorem call_staysInside (h : c.Inside code) (address : UInt32) :
    StaysInside code (call address) c := by
  unfold StaysInside EndsIn
  rw [call_run]
  split_ifs
  · apply (here_staysInside h).bind
    intro next c₁ hhere _
    obtain ⟨hnext, rfl⟩ := (here_run_eq_ok c c₁ next).mp hhere
    -- what is remembered is the cursor, which the fetch has left inside the code
    have hle : next.toNat ≤ code.length := by
      have hcursor := h.decoder.cursor_le
      unfold Decoder.address at hnext
      split at hnext
      next hlt =>
        obtain rfl := Except.ok.inj hnext
        rwa [UInt32.toNat_ofNat_of_lt' hlt]
      next => cases hnext
    have hpushed : Core.Inside (c₁.moveTo c₁.machine.decoder (next :: c₁.machine.stack)) code :=
      ⟨h.decoder, List.forall_mem_cons.mpr ⟨hle, h.stack⟩⟩
    exact jump_target_staysInside hpushed
  · exact h

theorem ret_run_of_stack {top : UInt32} {rest : List UInt32} (hstack : c.machine.stack = top :: rest)
    (address : UInt32) :
    (ret address).run c = (jump top).run (c.moveTo c.machine.decoder rest) := by
  rw [ret, EStateM.run_get_bind, hstack]
  rfl

theorem ret_staysInside (h : c.Inside code) (address : UInt32) : StaysInside code (ret address) c := by
  unfold StaysInside EndsIn
  cases hstack : c.machine.stack with
  | nil =>
    rw [ret, EStateM.run_get_bind, hstack]
    exact h
  | cons top rest =>
    rw [ret_run_of_stack hstack]
    have hrest := (List.forall_mem_cons.mp (hstack ▸ h.stack)).2
    have hpopped : Core.Inside (c.moveTo c.machine.decoder rest) code := ⟨h.decoder, hrest⟩
    exact jump_staysInside hpopped top

theorem compute_staysInside (h : c.Inside code) (address : UInt32) (op : Opcode) :
    StaysInside code (compute address op) c := by
  by_cases hsink : op.sink? = some 2
  · rw [compute_eq_binary address hsink]
    exact binary_staysInside h _
  · -- the cases of `compute` in order: a constant, a move, six operations on two operands, the jumps, a
    -- call, a return and the operations that are handed over
    unfold compute
    split
    case h_1 => exact setArg_staysInside h 0 c.machine.decoder.record.constant
    case h_2 => exact arg_bind_staysInside h 0 fun v => setArg_staysInside h 1 v
    case h_9 => exact jump_target_staysInside h
    case h_10 =>
      apply arg_bind_staysInside h
      intro a
      apply arg_bind_staysInside h
      intro b
      split
      next => exact jump_target_staysInside h
      next => exact h
    case h_11 => exact call_staysInside h address
    case h_12 => exact ret_staysInside h address
    case h_13 => exact h
    all_goals exact absurd rfl hsink

theorem decode_run {α : Type} (read : Reading α) (c : Core) :
    (decode read).run c = match read.run c.machine.decoder with
      | .ok a decoder => .ok a (c.moveTo decoder c.machine.stack)
      | .error cause decoder => .error (.decode cause) (c.moveTo decoder c.machine.stack) := rfl

theorem instruction_staysInside (h : c.Inside code) :
    StaysInside code (decode Reading.instruction) c := by
  have hfetch := h.decoder.fetch
  unfold Decoder.fetch at hfetch
  unfold StaysInside EndsIn
  rw [decode_run]
  cases hrun : Reading.instruction.run c.machine.decoder with
  | ok op d =>
    rw [hrun] at hfetch
    exact ⟨hfetch, h.stack⟩
  | error cause d =>
    rw [hrun] at hfetch
    exact ⟨hfetch, h.stack⟩

theorem step_staysInside (h : c.Inside code) : StaysInside code step c := by
  apply (here_staysInside h).bind
  intro address c₁ _ h₁
  apply (instruction_staysInside h₁).bind
  intro op c₂ _ h₂
  split
  next => exact (compute_staysInside h₂ address op).bind fun _ _ _ h₃ => h₃
  next => exact h₂

end Exec

namespace Core

variable {c : Core} {code : Code}

theorem Inside.step (h : c.Inside code) : c.step.2.Inside code := by
  have hstep := Exec.step_staysInside h
  unfold Exec.StaysInside EndsIn at hstep
  unfold Core.step
  cases hrun : Exec.step.run c with
  | ok op c' =>
    rw [hrun] at hstep
    exact hstep
  | error fault c' =>
    rw [hrun] at hstep
    exact hstep

theorem Inside.respond (h : c.Inside code) (a : Stimulus) : (c.respond a).2.Inside code := by
  cases a with
  | step => exact h.step
  | load index => exact h
  | store index v =>
    change (Response.settled c (c.writeArg index v)).2.Inside code
    cases hw : c.writeArg index v with
    | error fault => exact h
    | ok c' =>
      obtain ⟨d, -, hput⟩ := (Except.bind_eq_ok_iff _ _ _).mp hw
      obtain rfl := (Except.pure_eq_ok_iff _ _).mp hput
      exact h.put v d
  | share memory => exact ⟨h.decoder, h.stack⟩
  | fork =>
    rw [Core.respond, Machine.fork, h.decoder.code_eq]
    split
    next d hjump => exact ⟨(Decoder.within_start code).jump hjump, List.forall_mem_nil _⟩
    next => exact h

/-- Neither steps nor services nor other threads lead a machine out of its code. -/
theorem Inside.respondAll (h : c.Inside code) (stimuli : List Stimulus) :
    (c.respondAll stimuli).2.Inside code := by
  induction stimuli generalizing c with
  | nil => exact h
  | cons a rest ih => exact ih (h.respond a)

end Core

/-- Inside a code only the end of the stream is out of reach of a jump. -/
theorem Decoder.jump_of_le {d : Decoder} {code : Code} (hd : d.code = code) {target : UInt32}
    (htarget : target.toNat ≤ code.length) :
    d.jump target = if target.toNat = code.length then .error (.jumpOutOfRange target code.length)
      else .ok { d with cursor := target.toNat } := by
  rw [Decoder.jump, hd]
  split_ifs
  · omega
  · rfl
  · rfl
  · omega

theorem Machine.cursor_lt_of_fetched? {m m' : Machine} {op : Opcode} {code : Code}
    (hd : m.decoder.Within code) (hop : op ≠ .padding) (h : m.fetched? = some (op, m')) :
    m.decoder.cursor < code.length := by
  obtain ⟨d, hrun, -⟩ := fetched?_eq_some_iff.mp h
  rcases (Reading.instruction_run_eq_ok _ _ _).mp hrun with ⟨-, hpad, -⟩ | ⟨-, hmem, o, -, hpre, -⟩
  · exact absurd hpad hop
  · have hlen := hpre.length_le
    have hpos := Bits.length_ofInstruction_pos op o hmem
    rw [m.decoder.length_rest, hd.code_eq] at hlen
    omega

namespace Core

variable {c : Core} {code : Code}

/-- A return with an open call uses up the innermost return address, and goes there unless it is the end of
the stream. -/
theorem Inside.step_ret (h : c.Inside code) (hcode : code.length ≤ UInt32.size) {m : Machine}
    {top : UInt32} {rest : List UInt32} (hm : c.machine.fetched? = some (.ret, m))
    (hstack : c.machine.stack = top :: rest) :
    c.step =
      if top.toNat = code.length then
        (.error (.decode (.jumpOutOfRange top code.length)),
          { c with machine := { m with stack := rest } })
      else
        (.ok none,
          { c with machine :=
            { m with stack := rest, decoder := { m.decoder with cursor := top.toNat } } }) := by
  -- the cursor is an address, since an instruction follows it
  have hcursor := Machine.cursor_lt_of_fetched? h.decoder (by decide) hm
  have hm' := (Machine.within_of_fetched? h.decoder hm).1
  have hjump := Decoder.jump_of_le hm'.code_eq (h.stack top (by rw [hstack]; exact List.mem_cons_self))
  have hread := (Exec.instruction_run_eq_ok c _ .ret).mpr ⟨m, hm, rfl⟩
  have haddress : c.machine.decoder.address = .ok (UInt32.ofNat c.machine.decoder.cursor) :=
    if_pos (Nat.lt_of_lt_of_le hcursor hcode)
  have hhere := (Exec.here_run_eq_ok c c _).mpr ⟨haddress, rfl⟩
  have hmstack : m.stack = top :: rest := by
    obtain ⟨d, -, rfl⟩ := Machine.fetched?_eq_some_iff.mp hm
    exact hstack
  have hret := Exec.ret_run_of_stack (c := { c with machine := m }) hmstack
    (UInt32.ofNat c.machine.decoder.cursor)
  have hstep : Exec.step.run c = (do
      Exec.ret (UInt32.ofNat c.machine.decoder.cursor)
      return none : Exec (Option Opcode)).run { c with machine := m } := by
    rw [Exec.step, EStateM.run_bind_of_ok hhere, EStateM.run_bind_of_ok hread]
    rfl
  rw [moveTo, Exec.jump_run, hjump] at hret
  split_ifs at hret ⊢
  · rw [Core.step, hstep, EStateM.run_bind_of_error hret]
  · rw [Core.step, hstep, EStateM.run_bind_of_ok hret]
    rfl

end Core

namespace Asm

namespace Labels

theorem find?_ofItems_eq_none {position : Nat} {items : List Item} {name : String}
    (h : name ∉ labelNames items) : find? (ofItems position items) name = none := by
  induction items generalizing position with
  | nil => rfl
  | cons item rest ih =>
    cases item with
    | label line other =>
      obtain ⟨hne, hrest⟩ := List.ne_and_not_mem_of_not_mem_cons h
      rw [ofItems, find?_cons, ih hrest, if_neg (Ne.symm hne)]
      rfl
    | instruction i => exact ih h

/-- A label that is not defined again stands for the place of its definition. -/
theorem find?_ofItems_append {name : String} {after : List Item} (h : name ∉ labelNames after)
    (position : Nat) (before : List Item) (line : Nat) :
    find? (ofItems position (before ++ .label line name :: after)) name =
      some (UInt32.ofNat (position + totalLength (instructions before))) := by
  induction before generalizing position with
  | nil =>
    rw [List.nil_append, ofItems, find?_cons, find?_ofItems_eq_none h, if_pos rfl]
    rfl
  | cons item rest ih =>
    cases item with
    | label line' other =>
      rw [List.cons_append, ofItems, find?_cons, ih, instructions_label]
      rfl
    | instruction i =>
      rw [List.cons_append, ofItems, ih, instructions_instruction, totalLength, Nat.add_assoc]

end Labels

theorem totalLength_eq_zero_iff {code : List Instruction} (h : ∀ i ∈ code, i.WellFormed) :
    totalLength code = 0 ↔ code = [] := by
  cases code with
  | nil => simp [totalLength]
  | cons i rest =>
    have hpos : 0 < i.length := by
      rw [← length_ofInstruction i 0]
      exact Bits.length_ofInstruction_pos _ _ (h i List.mem_cons_self).opcode
    simp only [totalLength, reduceCtorEq, iff_false]
    omega

section Assembled

variable {text : String} {source : Source} {a : Assembly}

theorem length_machineCode (hsource : Source.parse text = .ok source) (hasm : assemble text = .ok a) :
    a.image.machineCode.length = totalLength (instructions source.code) +
      Bits.slack (totalLength (instructions source.code)) := by
  rw [← Code.length_bits, (bits_machineCode hsource hasm).2, List.length_append, length_codeBits,
    List.length_replicate]

theorem isPadding_totalLength (hsource : Source.parse text = .ok source)
    (hasm : assemble text = .ok a) :
    a.image.machineCode.isPadding (totalLength (instructions source.code)) = true := by
  apply Code.isPadding_of_zeros _ _ (Bits.slack (totalLength (instructions source.code)))
  · exact Nat.mod_lt _ (by decide)
  · rw [(bits_machineCode hsource hasm).2, ← length_codeBits (Labels.ofItems 0 source.code),
      List.drop_left]

/-- A jump to a label goes there, unless the label stands behind the last instruction and no padding
follows it. -/
theorem jump_label (hsource : Source.parse text = .ok source) (hasm : assemble text = .ok a)
    (hsize : totalLength (instructions source.code) < UInt32.size) {before after : List Item}
    {line : Nat} {name : String} (hcode : source.code = before ++ .label line name :: after)
    {d : Decoder} (hd : d.code = a.image.machineCode) :
    let address := UInt32.ofNat (totalLength (instructions before))
    d.jump address =
      if instructions after = [] ∧ 8 ∣ totalLength (instructions source.code) then
        .error (.jumpOutOfRange address a.image.machineCode.length)
      else .ok { d with cursor := totalLength (instructions before) } := by
  intro address
  have hlength := length_machineCode hsource hasm
  have hwf := (Source.parse_wellFormed hsource).instructions
  rw [hcode, instructions_append, instructions_label] at hwf hsize hlength ⊢
  rw [totalLength_append] at hsize hlength ⊢
  have hafter := totalLength_eq_zero_iff fun i hi => hwf i (List.mem_append_right _ hi)
  have haddress : address.toNat = totalLength (instructions before) :=
    UInt32.toNat_ofNat_of_lt' (by omega)
  -- the label is at the end of the stream exactly if nothing follows it, not even padding
  have hend : address.toNat = a.image.machineCode.length ↔
      instructions after = [] ∧
        8 ∣ totalLength (instructions before) + totalLength (instructions after) := by
    rw [← hafter, haddress, hlength, Bits.slack]
    omega
  rw [Decoder.jump_of_le hd (by omega), haddress]
  rw [haddress] at hend
  exact if_congr hend rfl rfl

/-- Behind the last instruction a machine finds padding. -/
theorem run_at_end (hsource : Source.parse text = .ok source) (hasm : assemble text = .ok a)
    (hsize : totalLength (instructions source.code) < UInt32.size) {c : Core}
    (hcode : c.machine.decoder.code = a.image.machineCode)
    (hcursor : c.machine.decoder.cursor = totalLength (instructions source.code)) (fuel : Nat) :
    c.run (fuel + 1) = some (.ok .padding,
      { c with machine := { c.machine with decoder := { c.machine.decoder with record := {} } } }) := by
  have haddress : c.machine.decoder.address = .ok (UInt32.ofNat c.machine.decoder.cursor) :=
    if_pos (by rwa [hcursor])
  have hpad : c.machine.decoder.code.isPadding c.machine.decoder.cursor = true := by
    rw [hcode, hcursor]
    exact isPadding_totalLength hsource hasm
  have hfetch := (Decoder.fetch_eq_iff _ _ _).mp (Decoder.fetch_of_isPadding _ hpad)
  have hstep := (Core.step_eq_ok_iff c _ (some .padding)).mpr ⟨_, .padding, _, haddress,
    Machine.fetched?_eq_some_iff.mpr ⟨_, hfetch, rfl⟩, .inr ⟨rfl, rfl, rfl⟩⟩
  rw [Core.run, hstep]
  rfl

/-- Destinations of an assembled source. A jump to a label goes there, unless the label stands behind the
last instruction and no padding follows it. Whatever has happened to a machine, a return with an open call
goes to the innermost return address, unless this is the end of the stream. A machine that has come to the
place behind the last instruction, by whatever way, finds padding. -/
theorem destinations_reached (hsource : Source.parse text = .ok source) (hasm : assemble text = .ok a)
    (hsize : totalLength (instructions source.code) < UInt32.size) :
    (∀ before line name after, source.code = before ++ .label line name :: after →
      let address := UInt32.ofNat (totalLength (instructions before))
      Labels.find? (Labels.ofItems 0 source.code) name = some address ∧
        ∀ d : Decoder, d.code = a.image.machineCode →
          d.jump address =
            if instructions after = [] ∧ 8 ∣ totalLength (instructions source.code) then
              .error (.jumpOutOfRange address a.image.machineCode.length)
            else .ok { d with cursor := totalLength (instructions before) }) ∧
    (∀ memory stimuli,
      let c := (Core.respondAll { machine := Machine.start a.image.machineCode, memory } stimuli).2
      ∀ m top rest, c.machine.fetched? = some (.ret, m) → c.machine.stack = top :: rest →
        c.step =
          if top.toNat = a.image.machineCode.length then
            (.error (.decode (.jumpOutOfRange top a.image.machineCode.length)),
              { c with machine := { m with stack := rest } })
          else
            (.ok none,
              { c with machine :=
                { m with stack := rest, decoder := { m.decoder with cursor := top.toNat } } })) ∧
    ∀ (c : Core) fuel, c.machine.decoder.code = a.image.machineCode →
      c.machine.decoder.cursor = totalLength (instructions source.code) →
      c.run (fuel + 1) = some (.ok .padding,
        { c with machine :=
          { c.machine with decoder := { c.machine.decoder with record := {} } } }) := by
  refine ⟨?_, ?_, ?_⟩
  · intro before line name after hcode address
    have hafter : name ∉ labelNames after := by
      have hnodup := (Source.parse_wellFormed hsource).labels
      rw [hcode, labelNames, List.filterMap_append] at hnodup
      exact (List.nodup_cons.mp (List.nodup_append.mp hnodup).2.1).1
    refine ⟨?_, fun d => jump_label hsource hasm hsize hcode⟩
    rw [hcode, Labels.find?_ofItems_append hafter, Nat.zero_add]
  · intro memory stimuli c m top rest
    have hinside : c.Inside a.image.machineCode := (Core.inside_start _ memory).respondAll stimuli
    -- padding does not lead beyond the addresses, since their number is a multiple of eight
    have hlength : a.image.machineCode.length ≤ UInt32.size := by
      rw [length_machineCode hsource hasm, Bits.slack]
      rw [UInt32.size] at hsize ⊢
      omega
    exact hinside.step_ret hlength
  · intro c fuel hcode hcursor
    exact run_at_end hsource hasm hsize hcode hcursor fuel

end Assembled

/-- A subroutine whose call is the last instruction. -/
def callAtEnd : String :=
  "jump main\nsub:\nret\nmain:\ncall sub\nend:"

/-- In front of three zeros the place behind the call is found by a jump and by a return. -/
theorem destinations_reached_callAtEnd :
    ∃ source a, Source.parse callAtEnd = .ok source ∧ assemble callAtEnd = .ok a ∧
      totalLength (instructions source.code) = 77 ∧ a.image.machineCode.length = 80 ∧
      Labels.find? (Labels.ofItems 0 source.code) "end" = some 77 ∧
      (Decoder.start a.image.machineCode).jump 77 =
        .ok { code := a.image.machineCode, cursor := 77 } ∧
      let c := (Core.respondAll
        { machine := Machine.start a.image.machineCode, memory := Memory.zeros 0 } [.step, .step]).2
      c.machine.stack = [77] ∧ c.step.1 = .ok none ∧
        ∀ fuel, (c.step.2.run (fuel + 1)).map (·.1) = some (.ok .padding) := by
  have hsource : Source.parse callAtEnd = .ok
      { code := [.instruction ⟨1, .jump, some (.label "main"), 0, []⟩,
          .label 2 "sub",
          .instruction ⟨3, .ret, none, 0, []⟩,
          .label 4 "main",
          .instruction ⟨5, .call, some (.label "sub"), 0, []⟩] ++ [.label 6 "end"] } := by
    cbv
  have hasm : assemble callAtEnd = .ok
      { image := Image.make [108, 160, 0, 0, 6, 229, 32, 0, 0, 0] [] 0 } := by
    cbv
  obtain ⟨hlabel, hret, hend⟩ := destinations_reached hsource hasm (by decide)
  obtain ⟨hfind, hjump⟩ := hlabel _ 6 "end" [] rfl
  refine ⟨_, _, hsource, hasm, rfl, rfl, hfind, (hjump _ rfl).trans rfl, ?_⟩
  intro c
  have hstep := hret (Memory.zeros 0) [.step, .step] _ 77 [] rfl rfl
  refine ⟨rfl, congrArg Prod.fst (hstep.trans rfl), ?_⟩
  intro fuel
  rw [show c.step = _ from hstep]
  exact congrArg (Option.map Prod.fst) (hend _ fuel rfl rfl)

/-- The same with another instruction in front of the call, so that the code fills its last byte. -/
def callAtEndOfByte : String :=
  "jump main\nsub:\nret\nlock byte[r0]\nmain:\ncall sub\nend:"

/-- Without padding behind it, the place behind the call is out of reach, for its label as well as for the
return. -/
theorem end_out_of_reach_callAtEndOfByte :
    ∃ source a, Source.parse callAtEndOfByte = .ok source ∧ assemble callAtEndOfByte = .ok a ∧
      totalLength (instructions source.code) = 88 ∧
      Labels.find? (Labels.ofItems 0 source.code) "end" = some 88 ∧
      (Decoder.start a.image.machineCode).jump 88 = .error (.jumpOutOfRange 88 88) ∧
      let c := (Core.respondAll
        { machine := Machine.start a.image.machineCode, memory := Memory.zeros 0 } [.step, .step]).2
      c.machine.stack = [88] ∧ c.machine.fetched?.map (·.1) = some .ret ∧
        c.step.1 = .error (.decode (.jumpOutOfRange 88 88)) := by
  have hsource : Source.parse callAtEndOfByte = .ok
      { code := [.instruction ⟨1, .jump, some (.label "main"), 0, []⟩,
          .label 2 "sub",
          .instruction ⟨3, .ret, none, 0, []⟩,
          .instruction ⟨4, .lock, none, 0, [.memory .byte 0]⟩,
          .label 5 "main",
          .instruction ⟨6, .call, some (.label "sub"), 0, []⟩,
          .label 7 "end"] } := by
    cbv
  have hasm : assemble callAtEndOfByte = .ok
      { image := Image.make [105, 96, 0, 0, 6, 244, 12, 164, 0, 0, 0] [] 0 } := by
    cbv
  exact ⟨_, _, hsource, hasm, rfl, rfl, rfl, rfl, rfl, rfl⟩

end Asm

end PrefixVM
