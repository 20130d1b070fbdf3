import Mathlib.Logic.Function.Basic
import PrefixVM.Proofs.Footprints

/-!
Machines that share one memory and take turns. As long as no machine reads or writes a byte that another one
writes, the order of the turns does not matter: each machine computes what it computes alone, and the memory
ends with the writes of all of them.
-/
namespace PrefixVM

namespace Memory

/-- A memory with some of its bytes taken over from another one. -/
def overlay (m : Memory) (places : List Nat) (other : Memory) : Memory :=
  ⟨m.cells.mapIdx fun k b => if k ∈ places then other.cells.getD k b else b⟩

theorem ext_getElem? {m m' : Memory} (h : ∀ k : Nat, m.cells[k]? = m'.cells[k]?) : m = m' := by
  cases m
  cases m'
  exact congrArg Memory.mk (Array.ext_getElem? h)

theorem size_overlay (m : Memory) (places : List Nat) (other : Memory) :
    (m.overlay places other).size = m.size :=
  Array.size_mapIdx

theorem getElem?_overlay {m other : Memory} (hsize : other.size = m.size) (places : List Nat) (k : Nat) :
    (m.overlay places other).cells[k]? =
      if k ∈ places then other.cells[k]? else m.cells[k]? := by
  have hcells : other.cells.size = m.cells.size := hsize
  rw [overlay, Array.getElem?_mapIdx]
  by_cases hk : k < m.cells.size
  · by_cases hin : k ∈ places <;> simp [hk, hcells, hin]
  · simp [hk, hcells]

end Memory

namespace Core

/-- The state after `n` steps, if each of them completes a computing instruction. -/
def computed? : (n : Nat) → Core → Option Core
  | 0, c => some c
  | n + 1, c =>
    match c.step with
    | (.ok none, c) => computed? n c
    | _ => none

/-- The bytes that the next `n` steps touch, as `places` tells for each of them. -/
def touched (places : Machine → List Nat) : (n : Nat) → Core → List Nat
  | 0, _ => []
  | n + 1, c => places c.machine ++ touched places n c.step.2

def readsWithin (n : Nat) (c : Core) : List Nat :=
  c.touched Machine.reads n

def writesWithin (n : Nat) (c : Core) : List Nat :=
  c.touched Machine.writes n

theorem computed?_succ_eq_some {n : Nat} {c c' : Core} (h : c.computed? (n + 1) = some c') :
    ∃ c₁, c.step = (.ok none, c₁) ∧ c₁.computed? n = some c' := by
  rw [computed?] at h
  split at h
  next c₁ hstep => exact ⟨c₁, hstep, h⟩
  next => cases h

theorem touched_succ {places : Machine → List Nat} {n : Nat} {c c₁ : Core}
    (h : c.step = (.ok none, c₁)) :
    c.touched places (n + 1) = places c.machine ++ c₁.touched places n := by
  rw [touched, h]

/-- Computing leaves the bytes alone that none of its steps writes. -/
theorem computed?_frame {n : Nat} {c c' : Core} (h : c.computed? n = some c') :
    c'.memory.size = c.memory.size ∧
      ∀ k, k ∉ c.writesWithin n → c'.memory.cells[k]? = c.memory.cells[k]? := by
  induction n generalizing c with
  | zero =>
    cases h
    exact ⟨rfl, fun _ _ => rfl⟩
  | succ n ih =>
    obtain ⟨c₁, hstep, h⟩ := computed?_succ_eq_some h
    obtain ⟨hsize, hcells⟩ := step_frame hstep
    obtain ⟨hsize', hcells'⟩ := ih h
    refine ⟨hsize'.trans hsize, ?_⟩
    intro k hk
    rw [writesWithin, touched_succ hstep, List.mem_append, not_or] at hk
    rw [hcells' k hk.2, hcells k hk.1]

end Core

/-- Machines that share one memory. -/
structure Team (ι : Type) where
  machines : ι → Machine
  memory : Memory

namespace Team

variable {ι : Type} [DecidableEq ι]

/-- One machine takes its turn and completes a computing instruction; there is no result if its step fails
or needs a service. -/
def step? (t : Team ι) (i : ι) : Option (Team ι) :=
  match Core.step { machine := t.machines i, memory := t.memory } with
  | (.ok none, c) => some { machines := Function.update t.machines i c.machine, memory := c.memory }
  | _ => none

def run? : (turns : List ι) → Team ι → Option (Team ι)
  | [], t => some t
  | i :: rest, t => (t.step? i).bind (run? rest)

/-- A team stands where its members stand when each of them runs alone, in a memory of its own: the shared
memory holds the bytes of a member's memory wherever no other member writes. -/
structure Follows (t : Team ι) (owned : ι → List Nat) (alone : ι → Core) : Prop where
  machine : ∀ i, t.machines i = (alone i).machine
  size : ∀ i, (alone i).memory.size = t.memory.size
  cells : ∀ i k, (∀ j, j ≠ i → k ∉ owned j) → t.memory.cells[k]? = (alone i).memory.cells[k]?

/-- The next `n` steps of a member stay inside its own bytes and those that nobody writes. -/
structure Confined (owned : ι → List Nat) (i : ι) (n : Nat) (c : Core) : Prop where
  reads : ∀ k ∈ c.readsWithin n, ∀ j, j ≠ i → k ∉ owned j
  writes : ∀ k ∈ c.writesWithin n, k ∈ owned i

omit [DecidableEq ι] in
theorem Confined.step {owned : ι → List Nat} {i : ι} {n : Nat} {c c₁ : Core}
    (h : Confined owned i (n + 1) c) (hstep : c.step = (.ok none, c₁)) : Confined owned i n c₁ := by
  have hreads : c.readsWithin (n + 1) = c.machine.reads ++ c₁.readsWithin n := Core.touched_succ hstep
  have hwrites : c.writesWithin (n + 1) = c.machine.writes ++ c₁.writesWithin n :=
    Core.touched_succ hstep
  refine ⟨fun k hk => h.reads k ?_, fun k hk => h.writes k ?_⟩
  · rw [hreads]
    exact List.mem_append_right _ hk
  · rw [hwrites]
    exact List.mem_append_right _ hk

/-- A turn in the team repeats the step that the member makes alone. -/
theorem Follows.step {t : Team ι} {owned : ι → List Nat} {alone : ι → Core} (h : t.Follows owned alone)
    {i : ι} {n : Nat} {c : Core} (hc : Confined owned i (n + 1) (alone i))
    (hstep : (alone i).step = (.ok none, c)) :
    ∃ t', t.step? i = some t' ∧ t'.Follows owned (Function.update alone i c) := by
  have hreads (k : Nat) (hk : k ∈ (alone i).machine.reads) (j : ι) (hj : j ≠ i) : k ∉ owned j :=
    hc.reads k (List.mem_append_left _ hk) j hj
  have hwrites (k : Nat) (hk : k ∈ (alone i).machine.writes) : k ∈ owned i :=
    hc.writes k (List.mem_append_left _ hk)
  have hagrees : (alone i).memory.Agrees t.memory (alone i).machine.reads :=
    ⟨h.size i, fun k hk => (h.cells i k (hreads k hk)).symm⟩
  obtain ⟨c', hstep', hrep⟩ := Core.step_repeats hstep hagrees
  have hframe := Core.step_frame hstep
  refine ⟨{ machines := Function.update t.machines i c'.machine, memory := c'.memory }, ?_, ?_, ?_, ?_⟩
  · rw [step?, h.machine i, hstep']
  · intro j
    by_cases hj : j = i
    · subst hj
      simp only [Function.update_self, hrep.machine]
    · simp only [Function.update_of_ne hj, h.machine j]
  · intro j
    rw [hrep.size, ← h.size j]
    by_cases hj : j = i
    · subst hj
      rw [Function.update_self, hframe.1]
    · rw [Function.update_of_ne hj]
  · intro j k hk
    rw [hrep.cells k]
    by_cases hj : j = i
    · subst hj
      rw [Function.update_self]
      split
      next => rfl
      next hout => rw [h.cells j k hk, hframe.2 k hout]
    · -- another member does not see the writes of this one
      rw [Function.update_of_ne hj, if_neg fun hin => hk i (Ne.symm hj) (hwrites k hin)]
      exact h.cells j k hk

/-- Turns in any order bring every member to where it gets alone. -/
theorem Follows.run {owned : ι → List Nat} {final : ι → Core} (turns : List ι) {t : Team ι}
    {alone : ι → Core} (h : t.Follows owned alone)
    (hc : ∀ i, Confined owned i (turns.count i) (alone i))
    (hfinal : ∀ i, (alone i).computed? (turns.count i) = some (final i)) :
    ∃ t', t.run? turns = some t' ∧ t'.Follows owned final := by
  induction turns generalizing t alone with
  | nil =>
    have halone : alone = final := by
      funext i
      exact Option.some.inj (hfinal i)
    exact ⟨t, rfl, halone ▸ h⟩
  | cons i rest ih =>
    have hci := hc i
    have hfi := hfinal i
    rw [List.count_cons_self] at hci hfi
    obtain ⟨c, hstep, hfi⟩ := Core.computed?_succ_eq_some hfi
    obtain ⟨t₁, hturn, h₁⟩ := h.step hci hstep
    -- the other members have the same turns before them as before
    have hrest (j : ι) : Confined owned j (rest.count j) (Function.update alone i c j) ∧
        (Function.update alone i c j).computed? (rest.count j) = some (final j) := by
      by_cases hj : j = i
      · subst hj
        rw [Function.update_self]
        exact ⟨hci.step hstep, hfi⟩
      · have hcj := hc j
        have hfj := hfinal j
        rw [List.count_cons_of_ne (Ne.symm hj)] at hcj hfj
        rw [Function.update_of_ne hj]
        exact ⟨hcj, hfj⟩
    obtain ⟨t', hrun, h'⟩ := ih h₁ (fun j => (hrest j).1) (fun j => (hrest j).2)
    refine ⟨t', ?_, h'⟩
    rw [run?, hturn]
    exact hrun

omit [DecidableEq ι] in
theorem follows_start (machines : ι → Machine) (memory : Memory) (owned : ι → List Nat) :
    Follows ⟨machines, memory⟩ owned fun i => ⟨machines i, memory⟩ :=
  ⟨fun _ => rfl, fun _ => rfl, fun _ _ _ => rfl⟩

/-- The memory of a team of two, whose members write different bytes. -/
theorem Follows.memory_eq {t : Team Bool} {owned : Bool → List Nat} {alone : Bool → Core} {memory : Memory}
    (h : t.Follows owned alone) (hsize : ∀ i, (alone i).memory.size = memory.size)
    (hframe : ∀ i k, k ∉ owned i → (alone i).memory.cells[k]? = memory.cells[k]?)
    (hapart : ∀ k ∈ owned true, k ∉ owned false) :
    t.memory = (memory.overlay (owned false) (alone false).memory).overlay (owned true)
      (alone true).memory := by
  have hcells (i : Bool) (k : Nat) (hk : k ∉ owned !i) :
      t.memory.cells[k]? = (alone i).memory.cells[k]? := by
    apply h.cells i k
    intro j hj
    rw [Bool.eq_not.mpr hj]
    exact hk
  have hfirst := memory.size_overlay (owned false) (alone false).memory
  apply Memory.ext_getElem?
  intro k
  rw [Memory.getElem?_overlay ((hsize true).trans hfirst.symm), Memory.getElem?_overlay (hsize false)]
  by_cases htrue : k ∈ owned true
  · rw [if_pos htrue]
    exact hcells true k (hapart k htrue)
  · rw [if_neg htrue, hcells false k htrue]
    split
    next => rfl
    next hfalse => exact hframe false k hfalse

/-- Two machines that share a memory and are free of races end in one state, whatever the order of their
turns: each of them as it ends alone, and the memory with the writes of both. -/
theorem run?_eq_of_raceFree (machines : Bool → Machine) (memory : Memory) (n : Bool → Nat)
    (alone : Bool → Core)
    (halone : ∀ i, Core.computed? (n i) ⟨machines i, memory⟩ = some (alone i))
    (hfree : ∀ i, ∀ k ∈ Core.writesWithin (n i) ⟨machines i, memory⟩,
      k ∉ Core.readsWithin (n !i) ⟨machines !i, memory⟩ ∧
      k ∉ Core.writesWithin (n !i) ⟨machines !i, memory⟩)
    (turns : List Bool) (hturns : ∀ i, turns.count i = n i) :
    run? turns ⟨machines, memory⟩ = some
      { machines := fun i => (alone i).machine
        memory := (memory.overlay (Core.writesWithin (n false) ⟨machines false, memory⟩)
            (alone false).memory).overlay
          (Core.writesWithin (n true) ⟨machines true, memory⟩) (alone true).memory } := by
  let owned (i : Bool) : List Nat := Core.writesWithin (n i) ⟨machines i, memory⟩
  have hc (i : Bool) : Confined owned i (turns.count i) ⟨machines i, memory⟩ := by
    rw [hturns i]
    refine ⟨?_, fun k hk => hk⟩
    intro k hk j hj howned
    obtain rfl := Bool.eq_not.mpr hj
    have hread := (hfree (!i) k howned).1
    rw [Bool.not_not] at hread
    exact hread hk
  have hfinal (i : Bool) : Core.computed? (turns.count i) ⟨machines i, memory⟩ = some (alone i) := by
    rw [hturns i]
    exact halone i
  obtain ⟨t, hrun, h⟩ := (follows_start machines memory owned).run turns hc hfinal
  have hframe (i : Bool) := Core.computed?_frame (halone i)
  have hmemory := h.memory_eq (fun i => (hframe i).1) (fun i => (hframe i).2)
    fun k hk => (hfree true k hk).2
  have hmachines : t.machines = fun i => (alone i).machine := funext h.machine
  rw [hrun, Option.some.injEq, ← hmachines]
  exact congrArg (Team.mk t.machines) hmemory

/-- One machine doubles the first byte and reads it back; the other one stores a three in the fourth byte and
reads it back. -/
def doublerAndMarker : Bool → Machine
  | false => .start (.ofBytes [0x46, 0x04, 0x08, 0x02, 0x02, 0xac])
  | true => .start (.ofBytes
      [0x38, 0x00, 0x00, 0x00, 0x00, 0x00, 0x00, 0x00, 0x08, 0x08, 0x90, 0x24, 0x1a, 0xc0])

theorem run?_eq_of_raceFree_doublerAndMarker :
    ∃ t, run? [true, false, true, false, true] ⟨doublerAndMarker, ⟨#[7, 8, 9, 10]⟩⟩ = some t ∧
      t.memory = ⟨#[14, 8, 9, 3]⟩ ∧ (t.machines false).registers[5] = 14 ∧
      (t.machines true).registers[6] = 3 := by
  let memory : Memory := ⟨#[7, 8, 9, 10]⟩
  let n (i : Bool) : Nat := if i then 3 else 2
  have hview (i : Bool) : (Core.computed? (n i) ⟨doublerAndMarker i, memory⟩).map (fun c =>
      (c.memory, c.machine.registers[5], c.machine.registers[6])) =
      some (if i then (⟨#[7, 8, 9, 3]⟩, 0, 3) else (⟨#[14, 8, 9, 10]⟩, 14, 0)) := by
    cases i <;> decide +kernel
  choose alone halone hend using fun i => Option.map_eq_some_iff.mp (hview i)
  have hwrites (i : Bool) : Core.writesWithin (n i) ⟨doublerAndMarker i, memory⟩ =
      if i then [3] else [0] := by
    cases i <;> decide +kernel
  have hreads (i : Bool) : Core.readsWithin (n i) ⟨doublerAndMarker i, memory⟩ =
      if i then [3] else [0, 0, 0] := by
    cases i <;> decide +kernel
  have hfree : ∀ i, ∀ k ∈ Core.writesWithin (n i) ⟨doublerAndMarker i, memory⟩,
      k ∉ Core.readsWithin (n !i) ⟨doublerAndMarker !i, memory⟩ ∧
      k ∉ Core.writesWithin (n !i) ⟨doublerAndMarker !i, memory⟩ := by
    simp only [hwrites, hreads]
    decide
  have hrun := run?_eq_of_raceFree doublerAndMarker memory n alone halone hfree
    [true, false, true, false, true] (by decide)
  have hfalse := hend false
  have htrue := hend true
  simp only [Bool.false_eq_true, if_false, if_true, Prod.mk.injEq] at hfalse htrue
  refine ⟨_, hrun, ?_, hfalse.2.1, htrue.2.2⟩
  rw [hwrites, hwrites, hfalse.1, htrue.1]
  rfl

end Team

end PrefixVM
