import PrefixVM.Proofs.Failures

/-!
Calls and returns. Whatever happens to a machine, one stimulus adds at most one return address or uses up the
innermost one, so what lies below a given depth stays as it is as long as the depth does not fall below it.
Hence a return goes back behind the call that it belongs to, however many calls, returns, jumps and services
lie between the two. There are never more than 4096 open calls.
-/
namespace PrefixVM

namespace Machine

/-- Machines as they are made: at the start of a code, or split off from another machine. -/
inductive Fresh : Machine → Prop where
  | start (code : Code) : Fresh (start code)
  | fork {parent m : Machine} {entry : UInt32} (h : parent.fork entry = .ok m) : Fresh m

theorem stack_of_fork {parent m : Machine} {entry : UInt32} (h : parent.fork entry = .ok m) :
    m.stack = [] := by
  unfold Machine.fork at h
  split at h
  next =>
    cases h
    rfl
  next => cases h

theorem Fresh.stack {m : Machine} (h : m.Fresh) : m.stack = [] := by
  cases h with
  | start code => rfl
  | fork h => exact stack_of_fork h

end Machine

namespace Core

variable {c c' : Core} {stack base : List UInt32}

abbrev depth (c : Core) : Nat :=
  c.machine.stack.length

/-- What can become of the return addresses of a machine at one stimulus. -/
inductive StackMove (c : Core) : List UInt32 → Prop where
  | kept : StackMove c c.machine.stack
  | pushed (back : UInt32) (hdepth : c.depth < Machine.maxDepth) :
      StackMove c (back :: c.machine.stack)
  | popped {top : UInt32} {rest : List UInt32} (h : c.machine.stack = top :: rest) : StackMove c rest
  /-- The machine is followed into a thread that is split off. -/
  | cleared : StackMove c []

theorem StackLeft.stackMove {fault : Fault} (h : c.StackLeft fault stack) : c.StackMove stack := by
  cases h with
  | kept => exact .kept
  | pushed _ _ hdepth => exact .pushed _ hdepth
  | popped _ hstack => exact .popped hstack

theorem Executes.stackMove {op : Opcode} {o : Operands} {next : Nat} (h : c.Executes o next c' op) :
    c.StackMove c'.machine.stack := by
  cases h with
  | load _ _ hgo | move _ _ _ hgo | combine _ _ _ _ _ hgo =>
    rw [hgo.stack]
    exact .kept
  | jump _ hgo | branch _ _ _ _ hgo | fall _ _ _ _ hgo =>
    rw [hgo.stack]
    exact .kept
  | call _ hdepth _ hgo =>
    rw [hgo.stack]
    exact .pushed _ hdepth
  | ret hstack _ hgo =>
    rw [hgo.stack]
    exact .popped hstack

/-- Handing an operation over leaves the return addresses alone. -/
theorem stack_of_step_some {op : Opcode} (h : c.step = (.ok (some op), c')) :
    c'.machine.stack = c.machine.stack := by
  obtain ⟨address, op', m, -, hm, ⟨-, hnone, -⟩ | ⟨-, -, rfl⟩⟩ := (step_eq_ok_iff c c' _).mp h
  · cases hnone
  · obtain ⟨d, -, rfl⟩ := Machine.fetched?_eq_some_iff.mp hm
    rfl

theorem stackMove_step (c : Core) : c.StackMove c.step.2.machine.stack := by
  match hstep : c.step with
  | (.ok none, c') =>
    obtain ⟨-, op, o, -, hexec⟩ := exists_executes_of_step hstep
    exact hexec.stackMove
  | (.ok (some op), c') =>
    change c.StackMove c'.machine.stack
    rw [stack_of_step_some hstep]
    exact .kept
  | (.error fault, c') => exact (leftBy_of_step hstep).stack.stackMove

theorem stack_of_writeArg {index : Nat} {v : Int64} (h : c.writeArg index v = .ok c') :
    c'.machine.stack = c.machine.stack := by
  obtain ⟨d, -, hput⟩ := (Except.bind_eq_ok_iff _ _ _).mp h
  obtain rfl := (Except.pure_eq_ok_iff _ _).mp hput
  exact (decoder_put c v d).2

theorem stackMove_respond (c : Core) (a : Stimulus) :
    c.StackMove (c.respond a).2.machine.stack := by
  cases a with
  | step => exact stackMove_step c
  | load index => exact .kept
  | store index v =>
    change c.StackMove (Response.settled c (c.writeArg index v)).2.machine.stack
    cases hw : c.writeArg index v with
    | error fault => exact .kept
    | ok c' =>
      change c.StackMove c'.machine.stack
      rw [stack_of_writeArg hw]
      exact .kept
  | share memory => exact .kept
  | fork =>
    unfold respond
    cases hf : c.machine.fork c.machine.decoder.record.address with
    | error fault => exact .kept
    | ok m =>
      change c.StackMove m.stack
      rw [Machine.stack_of_fork hf]
      exact .cleared

theorem StackMove.length_le (h : c.StackMove stack) (hc : c.depth ≤ Machine.maxDepth) :
    stack.length ≤ Machine.maxDepth := by
  cases h with
  | kept => exact hc
  | pushed back hdepth => exact hdepth
  | popped hstack =>
    have hlength := congrArg List.length hstack
    rw [List.length_cons] at hlength
    change c.machine.stack.length ≤ Machine.maxDepth at hc
    omega
  | cleared => exact Nat.zero_le _

/-- Addresses at the bottom stay where they are unless the depth falls below them. -/
theorem StackMove.suffix (h : c.StackMove stack) (hbase : base <:+ c.machine.stack)
    (hlength : base.length ≤ stack.length) : base <:+ stack := by
  cases h with
  | kept => exact hbase
  | pushed back _ => exact hbase.trans (List.suffix_cons _ _)
  | @popped top rest hstack =>
    rw [hstack, List.suffix_cons_iff] at hbase
    rcases hbase with rfl | hrest
    · -- nothing lies above the bottom, so the depth has fallen below it
      rw [List.length_cons] at hlength
      omega
    · exact hrest
  | cleared =>
    have hnil : base = [] := List.eq_nil_of_length_eq_zero (Nat.le_zero.mp hlength)
    rw [hnil]

theorem depth_respondAll_le (hc : c.depth ≤ Machine.maxDepth) (stimuli : List Stimulus) :
    (c.respondAll stimuli).2.depth ≤ Machine.maxDepth := by
  induction stimuli generalizing c with
  | nil => exact hc
  | cons a rest ih => exact ih ((stackMove_respond c a).length_le hc)

theorem suffix_respondAll {stimuli : List Stimulus} (hbase : base <:+ c.machine.stack)
    (habove : ∀ n, base.length ≤ (c.respondAll (stimuli.take n)).2.depth) :
    base <:+ (c.respondAll stimuli).2.machine.stack := by
  induction stimuli generalizing c with
  | nil => exact hbase
  | cons a rest ih =>
    -- the first stimulus leaves the bottom in place, and the others start from there
    apply ih
    · exact (stackMove_respond c a).suffix hbase (habove 1)
    · intro n
      exact habove (n + 1)

/-- A segment in which calls and returns are balanced: the depth never falls below the one at its start, and
is the same again at its end. -/
structure Balanced (c : Core) (segment : List Stimulus) : Prop where
  above : ∀ n, c.depth ≤ (c.respondAll (segment.take n)).2.depth
  level : (c.respondAll segment).2.depth = c.depth

theorem Balanced.stack_eq {segment : List Stimulus} (h : c.Balanced segment) :
    (c.respondAll segment).2.machine.stack = c.machine.stack := by
  have hsuffix := suffix_respondAll (List.suffix_refl _) h.above
  exact (hsuffix.eq_of_length h.level.symm).symm

/-- The next step comes to an instruction. -/
structure Meets (c : Core) (op : Opcode) (o : Operands) : Prop where
  cursor : c.machine.decoder.cursor < UInt32.size
  code : c.machine.decoder.rest.StartsWith op o

section Meets

variable {op : Opcode} {o : Operands} {fault : Fault}

theorem Meets.step_of_ok (h : c.Meets op o) (hop : op.isComputational = true)
    (hrun : (Exec.compute (UInt32.ofNat c.machine.decoder.cursor) op).run
      (c.past o (Bits.ofInstruction op o).length) = .ok () c') : c.step = (.ok none, c') := by
  rw [step_of_startsWith h.cursor h.code hop, hrun]

theorem Meets.step_of_error (h : c.Meets op o) (hop : op.isComputational = true)
    (hrun : (Exec.compute (UInt32.ofNat c.machine.decoder.cursor) op).run
      (c.past o (Bits.ofInstruction op o).length) = .error fault c') : c.step = (.error fault, c') := by
  rw [step_of_startsWith h.cursor h.code hop, hrun]

/-- A call is refused exactly if there are too many open calls already. -/
theorem Meets.call_overflow (h : c.Meets .call o) :
    ((∃ address, c.step.1 = .error (.stackOverflow address)) ↔ Machine.maxDepth ≤ c.depth) ∧
      (Machine.maxDepth ≤ c.depth → c.step.2.machine.stack = c.machine.stack) := by
  have hrun := Exec.call_run_eq (UInt32.ofNat c.machine.decoder.cursor)
    (c.past o (Bits.ofInstruction .call o).length)
  change _ = if c.depth < Machine.maxDepth then _ else _ at hrun
  by_cases hdepth : c.depth < Machine.maxDepth
  · have hle : ¬ Machine.maxDepth ≤ c.depth := Nat.not_le.mpr hdepth
    refine ⟨⟨?_, fun h => absurd h hle⟩, fun h => absurd h hle⟩
    rintro ⟨address, hfault⟩
    rw [if_pos hdepth] at hrun
    -- what can still fail is finding the place behind the call, or the jump
    split at hrun
    next =>
      rw [Exec.jump_run] at hrun
      split at hrun
      next =>
        rw [h.step_of_ok rfl hrun] at hfault
        cases hfault
      next =>
        rw [h.step_of_error rfl hrun] at hfault
        cases hfault
    next =>
      rw [h.step_of_error rfl hrun] at hfault
      cases hfault
  · rw [if_neg hdepth] at hrun
    rw [h.step_of_error rfl hrun]
    exact ⟨⟨fun _ => Nat.not_lt.mp hdepth, fun _ => ⟨_, rfl⟩⟩, fun _ => rfl⟩

/-- A return with an open call uses up the innermost address, and goes there if it lies in the code. -/
theorem Meets.ret_of_stack (h : c.Meets .ret o) {top : UInt32} {rest : List UInt32}
    (hstack : c.machine.stack = top :: rest) :
    c.step.2.machine.stack = rest ∧
      (c.step.1 = .ok none ∧ c.step.2.machine.decoder.cursor = top.toNat ∨
        c.step.1 = .error (.decode (.jumpOutOfRange top c.machine.decoder.code.length))) := by
  have hpast : (c.past o (Bits.ofInstruction .ret o).length).machine.stack = top :: rest := hstack
  have hrun := Exec.ret_run_of_stack hpast (UInt32.ofNat c.machine.decoder.cursor)
  rw [Exec.jump_run] at hrun
  split at hrun
  next d hd =>
    obtain ⟨-, rfl⟩ := Decoder.jump_eq_ok_iff.mp hd
    rw [h.step_of_ok rfl hrun]
    exact ⟨rfl, .inl ⟨rfl, rfl⟩⟩
  next cause hcause =>
    rw [h.step_of_error rfl hrun, Decoder.jump_eq_error hcause]
    exact ⟨rfl, .inr rfl⟩

/-- A return fails for want of an open call exactly if there is none. -/
theorem Meets.ret_underflow (h : c.Meets .ret o) :
    (∃ address, c.step.1 = .error (.stackUnderflow address)) ↔ c.machine.stack = [] := by
  cases hstack : c.machine.stack with
  | nil =>
    have hpast : (c.past o (Bits.ofInstruction .ret o).length).machine.stack = [] := hstack
    have hrun := Exec.ret_run_nil (UInt32.ofNat c.machine.decoder.cursor) hpast
    rw [h.step_of_error rfl hrun]
    exact ⟨fun _ => rfl, fun _ => ⟨_, rfl⟩⟩
  | cons top rest =>
    simp only [reduceCtorEq, iff_false, not_exists]
    intro address hfault
    rcases (h.ret_of_stack hstack).2 with ⟨hok, -⟩ | herror
    · rw [hok] at hfault
      cases hfault
    · rw [herror] at hfault
      cases hfault

/-- A call that completes has remembered the place behind it. -/
theorem stack_of_call (hstart : c.machine.decoder.rest.StartsWith .call o)
    (h : c.step = (.ok none, c')) :
    ∃ back : UInt32,
      back.toNat = c.machine.decoder.cursor + (Bits.ofInstruction .call o).length ∧
        c'.machine.stack = back :: c.machine.stack := by
  obtain ⟨-, op, o', hstart', hexec⟩ := exists_executes_of_step h
  obtain ⟨rfl, rfl⟩ := Decoder.startsWith_unique hstart hstart'
  cases hexec with
  | combine _ _ _ hn => cases hn
  | call hback _ _ hgo => exact ⟨_, hback, hgo.stack⟩

end Meets

/-- Whether a stimulus completes an instruction with the given operation. -/
def completes (op : Opcode) (c : Core) : Stimulus → Bool
  | .step =>
    match c.step.1, c.machine.fetched? with
    | .ok none, some (found, _) => found == op
    | _, _ => false
  | _ => false

/-- How many instructions with the given operation are completed. -/
def completions (op : Opcode) (c : Core) : List Stimulus → Nat
  | [] => 0
  | a :: rest => (c.completes op a).toNat + (c.respond a).2.completions op rest

theorem depth_of_step_none (h : c.step = (.ok none, c')) :
    c'.depth + (c.completes .ret .step).toNat = c.depth + (c.completes .call .step).toNat := by
  obtain ⟨-, op, o, hstart, hexec⟩ := exists_executes_of_step h
  have hfetched := (fetched?_eq_some_iff (Opcode.ne_padding hexec.isComputational)).mpr ⟨o, hstart, rfl⟩
  simp only [completes, h, hfetched]
  cases hexec with
  | load _ _ hgo | move _ _ _ hgo => rw [depth, hgo.stack]; rfl
  | @combine op _ _ _ _ _ _ _ _ _ hn _ hgo =>
    rw [depth, hgo.stack]
    cases op <;> first | rfl | cases hn
  | jump _ hgo | branch _ _ _ _ hgo | fall _ _ _ _ hgo => rw [depth, hgo.stack]; rfl
  | call _ _ _ hgo => rw [depth, hgo.stack]; rfl
  | ret hstack _ hgo => rw [depth, depth, hgo.stack, hstack]; rfl

theorem depth_respond {a : Stimulus} (hfork : a ≠ .fork)
    (hok : ∀ fault, (c.respond a).1 ≠ .stepped (.error fault)) :
    (c.respond a).2.depth + (c.completes .ret a).toNat = c.depth + (c.completes .call a).toNat := by
  cases a with
  | step =>
    match hstep : c.step with
    | (.ok none, c') =>
      have hdepth := depth_of_step_none hstep
      rw [respond, hstep]
      exact hdepth
    | (.ok (some op), c') =>
      simp only [completes, hstep]
      rw [respond, hstep, depth, stack_of_step_some hstep]
    | (.error fault, c') =>
      apply absurd _ (hok fault)
      rw [respond, hstep]
  | load index => rfl
  | store index v =>
    change (Response.settled c (c.writeArg index v)).2.depth + 0 = c.depth + 0
    cases hw : c.writeArg index v with
    | error fault => rfl
    | ok c' => exact congrArg List.length (stack_of_writeArg hw)
  | share memory => rfl
  | fork => exact absurd rfl hfork

/-- As long as no instruction fails and no other thread is followed, the depth counts the calls and returns
that are completed. -/
theorem depth_respondAll {stimuli : List Stimulus} (hfork : .fork ∉ stimuli)
    (hok : ∀ fault, .stepped (.error fault) ∉ (c.respondAll stimuli).1) :
    (c.respondAll stimuli).2.depth + c.completions .ret stimuli =
      c.depth + c.completions .call stimuli := by
  induction stimuli generalizing c with
  | nil => rfl
  | cons a rest ih =>
    obtain ⟨hne, hrest⟩ := List.ne_and_not_mem_of_not_mem_cons hfork
    have hfirst := depth_respond (c := c) (Ne.symm hne)
      fun fault heq => hok fault (heq ▸ List.mem_cons_self)
    have hlater := ih (c := (c.respond a).2) hrest
      fun fault hmem => hok fault (List.mem_cons_of_mem _ hmem)
    change ((c.respond a).2.respondAll rest).2.depth + _ = _
    rw [completions, completions]
    omega

theorem responses_take (stimuli : List Stimulus) (n : Nat) :
    (c.respondAll (stimuli.take n)).1 = (c.respondAll stimuli).1.take n := by
  induction stimuli generalizing c n with
  | nil =>
    rw [List.take_nil]
    exact List.take_nil.symm
  | cons a rest ih =>
    cases n with
    | zero => rfl
    | succ n => exact congrArg (List.cons (c.respond a).1) (ih n)

/-- Calls and returns are balanced exactly if they match like brackets. -/
theorem balanced_iff {segment : List Stimulus} (hfork : .fork ∉ segment)
    (hok : ∀ fault, .stepped (.error fault) ∉ (c.respondAll segment).1) :
    c.Balanced segment ↔
      (∀ n, c.completions .ret (segment.take n) ≤ c.completions .call (segment.take n)) ∧
        c.completions .ret segment = c.completions .call segment := by
  -- what is known of the whole segment holds of each part at its front
  have hcount (n : Nat) : (c.respondAll (segment.take n)).2.depth + c.completions .ret (segment.take n) =
      c.depth + c.completions .call (segment.take n) := by
    apply depth_respondAll
    · exact fun hmem => hfork (List.mem_of_mem_take hmem)
    · intro fault hmem
      rw [responses_take] at hmem
      exact hok fault (List.mem_of_mem_take hmem)
  have hall := depth_respondAll hfork hok
  constructor
  · intro h
    refine ⟨fun n => ?_, ?_⟩
    · have habove := h.above n
      have hn := hcount n
      omega
    · have hlevel := h.level
      omega
  · rintro ⟨habove, hlevel⟩
    refine ⟨fun n => ?_, ?_⟩
    · have hle := habove n
      have hn := hcount n
      omega
    · omega

/-- The rules of calling and returning, for a state and whatever comes after it. -/
structure CallDiscipline (c : Core) : Prop where
  bounded : c.depth ≤ 4096
  overflow : ∀ o, c.Meets .call o →
    ((∃ address, c.step.1 = .error (.stackOverflow address)) ↔ c.depth = 4096) ∧
      (c.depth = 4096 → c.step.2.machine.stack = c.machine.stack)
  underflow : ∀ o, c.Meets .ret o →
    ((∃ address, c.step.1 = .error (.stackUnderflow address)) ↔ c.machine.stack = [])
  /-- Being balanced is about the depth. As long as nothing fails, it is about the number of instructions. -/
  balanced : ∀ segment, .fork ∉ segment →
    (∀ fault, .stepped (.error fault) ∉ (c.respondAll segment).1) →
      (c.Balanced segment ↔
        (∀ n, c.completions .ret (segment.take n) ≤ c.completions .call (segment.take n)) ∧
          c.completions .ret segment = c.completions .call segment)
  /-- After a call and a balanced segment, a return uses up the position behind the call. -/
  returns : ∀ o c₁ segment, c.machine.decoder.rest.StartsWith .call o → c.step = (.ok none, c₁) →
    c₁.Balanced segment →
      let c₂ := (c₁.respondAll segment).2
      ∀ o', c₂.Meets .ret o' →
        ∃ back : UInt32,
          back.toNat = c.machine.decoder.cursor + (Bits.ofInstruction .call o).length ∧
            c₂.machine.stack = back :: c.machine.stack ∧
            c₂.step.2.machine.stack = c.machine.stack ∧
            (c₂.step.1 = .ok none ∧ c₂.step.2.machine.decoder.cursor = back.toNat ∨
              c₂.step.1 = .error (.decode (.jumpOutOfRange back c₂.machine.decoder.code.length)))

/-- From a fresh machine on, calls and returns keep to the rules at every point, whatever is done to the
machine in between. -/
theorem callDiscipline_of_fresh {c₀ : Core} (hfresh : c₀.machine.Fresh) (history : List Stimulus) :
    (c₀.respondAll history).2.CallDiscipline := by
  have hstart : c₀.depth ≤ Machine.maxDepth := by
    rw [depth, hfresh.stack]
    exact Nat.zero_le _
  have hbounded := depth_respondAll_le hstart history
  -- beyond the bound on the depth, how the state came about does not matter
  generalize (c₀.respondAll history).2 = c at hbounded ⊢
  have hfull : Machine.maxDepth ≤ c.depth ↔ c.depth = 4096 :=
    ⟨fun h => Nat.le_antisymm hbounded h, fun h => h.ge⟩
  constructor
  case bounded => exact hbounded
  case overflow =>
    intro o hmeets
    rw [← hfull]
    exact hmeets.call_overflow
  case underflow => exact fun o hmeets => hmeets.ret_underflow
  case balanced => exact fun segment => balanced_iff
  case returns =>
    intro o c₁ segment hcall hstep hbalanced c₂ o' hmeets
    obtain ⟨back, hback, hpushed⟩ := stack_of_call hcall hstep
    have hstack : c₂.machine.stack = back :: c.machine.stack := hbalanced.stack_eq.trans hpushed
    obtain ⟨hpopped, hdone⟩ := hmeets.ret_of_stack hstack
    exact ⟨back, hback, hstack, hpopped, hdone⟩

/-- A machine in front of `call sub; hlt; sub: consoleRead r1; call inner; ret; inner: ret`. -/
def nestedCalls : Core where
  machine := Machine.start
    (Image.make [201, 64, 0, 0, 11, 73, 25, 180, 0, 0, 1, 186] [] 0).machineCode
  memory := Memory.zeros 0

/-- Between the first call and the return from it, a service answers and the inner call is made and left. The
return at 87 goes back to 36, behind the first call. -/
theorem callDiscipline_of_fresh_nestedCalls :
    let segment : List Stimulus := [.step, .store 0 5, .step, .step]
    let c₂ := (nestedCalls.step.2.respondAll segment).2
    nestedCalls.machine.Fresh ∧ nestedCalls.CallDiscipline ∧ nestedCalls.step.2.Balanced segment ∧
      c₂.machine.decoder.cursor = 87 ∧ c₂.step.1 = .ok none ∧
        c₂.step.2.machine.decoder.cursor = 36 := by
  intro segment c₂
  have hfresh : nestedCalls.machine.Fresh := .start _
  have hdiscipline : nestedCalls.CallDiscipline := callDiscipline_of_fresh hfresh []
  have hbalanced : nestedCalls.step.2.Balanced segment := by
    refine ⟨fun n => ?_, by decide +kernel⟩
    match n with
    | 0 | 1 | 2 | 3 => decide +kernel
    | n + 4 =>
      have htake : segment.take (n + 4) = segment := List.take_of_length_le (Nat.le_add_left 4 n)
      rw [htake]
      decide +kernel
  have hcall : nestedCalls.machine.decoder.rest.StartsWith .call { address := 41 } :=
    ⟨by decide, ⟨by decide, by decide, by decide, by decide⟩, by decide +kernel⟩
  have hstep : nestedCalls.step = (.ok none, nestedCalls.step.2) := rfl
  have hret : c₂.Meets .ret {} :=
    ⟨by decide +kernel, by decide, ⟨by decide, by decide, by decide, by decide⟩, by decide +kernel⟩
  obtain ⟨back, hback, -, -, hdone⟩ := hdiscipline.returns _ _ _ hcall hstep hbalanced _ hret
  have hok : c₂.step.1 = .ok none := by decide +kernel
  rcases hdone with ⟨-, hcursor⟩ | herror
  · refine ⟨hfresh, hdiscipline, hbalanced, by decide +kernel, hok, ?_⟩
    rw [hcursor, hback]
    decide +kernel
  · rw [hok] at herror
    cases herror

end Core

end PrefixVM
