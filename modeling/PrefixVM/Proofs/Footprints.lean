import PrefixVM.Proofs.Computing

/-!
Footprints of computing instructions. An instruction reads the bytes of its memory operands and writes the
bytes of the operand that it stores through; which bytes these are depends on the machine alone. On another
memory that agrees on the bytes read, the instruction does the same, and it leaves all bytes alone that it
does not write.
-/
namespace PrefixVM

namespace Memory

/-- Two memories of one size that hold the same bytes at the given places. -/
structure Agrees (m m' : Memory) (places : List Nat) : Prop where
  size : m.size = m'.size
  cells : ∀ k ∈ places, m.cells[k]? = m'.cells[k]?

theorem Agrees.mono {m m' : Memory} {places fewer : List Nat} (h : m.Agrees m' places)
    (hsub : ∀ k ∈ fewer, k ∈ places) : m.Agrees m' fewer :=
  ⟨h.size, fun k hk => h.cells k (hsub k hk)⟩

theorem load_congr {cells cells' : Array UInt8} {start count : Nat} (hsize : cells.size = cells'.size)
    (h : ∀ k ∈ List.range' start count, cells[k]? = cells'[k]?) :
    load cells start count = load cells' start count := by
  unfold load
  congr 1
  apply Array.ext_getElem?
  intro i
  rw [Array.getElem?_extract, Array.getElem?_extract, hsize]
  split
  next hi =>
    apply h
    rw [List.mem_range'_1]
    omega
  next => rfl

theorem place_congr {m m' : Memory} (hsize : m.size = m'.size) (address : Int64) (count : Nat) :
    m.place address count = m'.place address count := by
  unfold place
  rw [hsize]

theorem place_eq_ok_iff (m : Memory) (address : Int64) (count start : Nat) :
    m.place address count = .ok start ↔
      0 ≤ address.toInt ∧ start = address.toInt.toNat ∧ start + count ≤ m.size := by
  unfold place
  split
  · rw [Except.ok.injEq]
    omega
  · simp only [reduceCtorEq, false_iff]
    omega

theorem read_congr {m m' : Memory} {address : Int64} {width : Width}
    (h : m.Agrees m' (List.range' address.toInt.toNat width.bytes)) :
    m.read address width = m'.read address width := by
  have hplace := place_congr h.size address width.bytes
  unfold read readBytes
  rw [hplace]
  cases hstart : m'.place address width.bytes with
  | error fault => rfl
  | ok start =>
    obtain ⟨-, rfl, -⟩ := (place_eq_ok_iff _ _ _ _).mp hstart
    have hload := load_congr h.size h.cells
    simp only [bind, Except.bind, hload]

theorem getElem?_store (cells : Array UInt8) (start : Nat) (bytes : Bytes) (k : Nat)
    (hinside : start + bytes.length ≤ cells.size) :
    (store cells start bytes)[k]? =
      if k ∈ List.range' start bytes.length then bytes[k - start]? else cells[k]? := by
  induction bytes generalizing cells start with
  | nil => simp [store]
  | cons b rest ih =>
    rw [List.length_cons] at hinside
    rw [store, ih _ _ (by rw [Array.size_setIfInBounds]; omega), Array.getElem?_setIfInBounds]
    simp only [List.mem_range'_1, List.length_cons]
    by_cases hk : k = start
    · subst hk
      rw [if_neg (by omega), if_pos rfl, if_pos (by omega), if_pos (by omega), Nat.sub_self]
      rfl
    · by_cases hin : start + 1 ≤ k ∧ k < start + 1 + rest.length
      · have hsub : k - start = k - (start + 1) + 1 := by omega
        rw [if_pos hin, if_pos (by omega), hsub, List.getElem?_cons_succ]
      · rw [if_neg hin, if_neg (by omega), if_neg (by omega)]

end Memory

namespace Destination

/-- The bytes of memory that storing there replaces. -/
def places : Destination → List Nat
  | .register _ => []
  | .cells start width => List.range' start width.bytes

def Inside (memory : Memory) : Destination → Prop
  | .register _ => True
  | .cells start width => start + width.bytes ≤ memory.size

end Destination

namespace Machine

/-- The bytes of memory that an operand of the last instruction stands for; none for a register. -/
def cells (m : Machine) (index : Nat) : List Nat :=
  match m.decoder.record.arg? index with
  | some (.memory width i) =>
    match m.registers[i.toNat]? with
    | some address => List.range' address.toInt.toNat width.bytes
    | none => []
  | _ => []

/-- The bytes that the next instruction reads, if it is a computing one. -/
def reads (m : Machine) : List Nat :=
  match m.fetched? with
  | some (op, m) => op.sources.flatMap m.cells
  | none => []

/-- The bytes that the next instruction writes, if it is a computing one. -/
def writes (m : Machine) : List Nat :=
  match m.fetched? with
  | some (op, m) => op.sink?.toList.flatMap m.cells
  | none => []

theorem readArg_congr {m : Machine} {memory memory' : Memory} {index : Nat}
    (h : memory.Agrees memory' (m.cells index)) :
    m.readArg memory index = m.readArg memory' index := by
  unfold cells at h
  unfold readArg operand register
  cases hop : m.decoder.record.arg? index with
  | none => rfl
  | some o =>
    cases o with
    | register i => rfl
    | memory width i =>
      cases hreg : m.registers[i.toNat]? with
      | none => simp only [bind, Except.bind, hreg]
      | some address =>
        simp only [hop, hreg] at h
        simp only [bind, Except.bind, hreg, Memory.read_congr h]

theorem destination_congr {memory memory' : Memory} (m : Machine) (index : Nat)
    (hsize : memory.size = memory'.size) : m.destination memory index = m.destination memory' index := by
  unfold destination
  simp only [Memory.place_congr hsize]

/-- An operand that is stored through leads to a register, or to bytes inside the memory. -/
theorem destination_cases {m : Machine} {memory : Memory} {index : Nat} {d : Destination}
    (h : m.destination memory index = .ok d) :
    (∃ r i, m.decoder.record.arg? index = some (.register r) ∧ d = .register i) ∨
    (∃ width r address start, m.decoder.record.arg? index = some (.memory width r) ∧
      m.registers[r.toNat]? = some address ∧ memory.place address width.bytes = .ok start ∧
      d = .cells start width) := by
  unfold destination operand register at h
  cases hop : m.decoder.record.arg? index with
  | none =>
    rw [hop] at h
    cases h
  | some o =>
    rw [hop] at h
    cases o with
    | register r =>
      simp only [bind, Except.bind] at h
      split at h
      next hr =>
        cases h
        exact .inl ⟨r, ⟨r.toNat, hr⟩, rfl, rfl⟩
      next => cases h
    | memory width r =>
      cases hreg : m.registers[r.toNat]? with
      | none => simp only [bind, Except.bind, hreg, reduceCtorEq] at h
      | some address =>
        simp only [bind, Except.bind, hreg] at h
        split at h
        next => cases h
        next start hplace =>
          cases h
          exact .inr ⟨width, r, address, start, rfl, hreg, hplace, rfl⟩

/-- The bytes of an operand are those that storing through it replaces. -/
theorem cells_eq_places {m : Machine} {memory : Memory} {index : Nat} {d : Destination}
    (h : m.destination memory index = .ok d) : m.cells index = d.places ∧ d.Inside memory := by
  unfold cells
  obtain ⟨r, i, hop, rfl⟩ | ⟨width, r, address, start, hop, hreg, hplace, rfl⟩ := destination_cases h
  · rw [hop]
    exact ⟨rfl, trivial⟩
  · obtain ⟨-, rfl, hle⟩ := (Memory.place_eq_ok_iff _ _ _ _).mp hplace
    simp only [hop, hreg]
    exact ⟨rfl, hle⟩

end Machine

namespace Core

/-- `c'` is what the changes that led to `c` make of another memory: the machine is the same, and the
memory differs from `memory` at most at the given places, where it holds what `c` holds. -/
structure Repeats (c c' : Core) (memory : Memory) (places : List Nat) : Prop where
  machine : c'.machine = c.machine
  size : c'.memory.size = memory.size
  cells : ∀ k, c'.memory.cells[k]? =
    if k ∈ places then c.memory.cells[k]? else memory.cells[k]?

theorem repeats_put {memory memory' : Memory} (m : Machine) (v : Int64) {d : Destination}
    (hinside : d.Inside memory) (hsize : memory.size = memory'.size) :
    Repeats (put ⟨m, memory⟩ v d) (put ⟨m, memory'⟩ v d) memory' d.places := by
  cases d with
  | register i => exact ⟨rfl, rfl, fun k => by simp [put, Destination.places]⟩
  | cells start width =>
    refine ⟨rfl, Memory.size_store _ _ _, ?_⟩
    intro k
    have hlen := Bytes.length_ofNatLE width.bytes v.toUInt64.toNat
    have hle : start + width.bytes ≤ memory.size := hinside
    have hle' : start + width.bytes ≤ memory'.size := hsize ▸ hle
    simp only [put, Memory.put, Destination.places]
    rw [Memory.getElem?_store _ _ _ _ (by rw [hlen]; exact hle'),
      Memory.getElem?_store _ _ _ _ (by rw [hlen]; exact hle), hlen]
    split <;> rfl

/-- An instruction that completes does the same on any memory that agrees on the bytes it reads. -/
theorem Computes.repeats {m : Machine} {memory memory' : Memory} {op : Opcode} {c : Core}
    (h : Computes ⟨m, memory⟩ op c) (hagrees : memory.Agrees memory' (op.sources.flatMap m.cells)) :
    ∃ c', Computes ⟨m, memory'⟩ op c' ∧
      c.Repeats c' memory' (op.sink?.toList.flatMap m.cells) := by
  -- operands have the same values on both memories, and results go to the same places
  have hread (i : Nat) (v : Int64) (hi : i ∈ op.sources) (hv : m.readArg memory i = .ok v) :
      m.readArg memory' i = .ok v := by
    have hcells : memory.Agrees memory' (m.cells i) :=
      hagrees.mono fun k hk => List.mem_flatMap.mpr ⟨i, hi, hk⟩
    rw [← Machine.readArg_congr hcells]
    exact hv
  have hstore (i : Nat) (v : Int64) (d : Destination) (hi : op.sink? = some i)
      (hd : m.destination memory i = .ok d) : m.destination memory' i = .ok d ∧
      Repeats (put ⟨m, memory⟩ v d) (put ⟨m, memory'⟩ v d) memory'
        (op.sink?.toList.flatMap m.cells) := by
    obtain ⟨hcells, hinside⟩ := Machine.cells_eq_places hd
    refine ⟨?_, ?_⟩
    · rw [← Machine.destination_congr m i hagrees.size]
      exact hd
    · have hplaces : op.sink?.toList.flatMap m.cells = d.places := by
        rw [hi, ← hcells]
        simp
      rw [hplaces]
      exact repeats_put m v hinside hagrees.size
  have hstay (decoder : Decoder) (stack : List UInt32) :
      Repeats (moveTo ⟨m, memory⟩ decoder stack) (moveTo ⟨m, memory'⟩ decoder stack) memory' [] :=
    ⟨rfl, rfl, fun k => by simp⟩
  cases h with
  | load hd =>
    obtain ⟨hd', hrep⟩ := hstore 0 m.decoder.record.constant _ rfl hd
    exact ⟨_, .load hd', hrep⟩
  | move hv hd =>
    obtain ⟨hd', hrep⟩ := hstore 1 _ _ rfl hd
    exact ⟨_, .move (hread 0 _ (by decide) hv) hd', hrep⟩
  | combine ha hb hv hd =>
    have hsink := Opcode.sink?_of_combine? hv
    have hsources : op.sources = [0, 1] := by
      cases op <;> first | rfl | cases hsink
    obtain ⟨hd', hrep⟩ := hstore 2 _ _ hsink hd
    refine ⟨_, .combine (hread 0 _ ?_ ha) (hread 1 _ ?_ hb) hv hd', hrep⟩
    · rw [hsources]
      decide
    · rw [hsources]
      decide
  | jump hd => exact ⟨_, .jump hd, hstay _ _⟩
  | branch ha hb hd =>
    exact ⟨_, .branch (hread 0 _ (by decide) ha) (hread 1 _ (by decide) hb) hd, hstay _ _⟩
  | fall ha hb hab =>
    exact ⟨_, .fall (hread 0 _ (by decide) ha) (hread 1 _ (by decide) hb) hab, hstay m.decoder m.stack⟩
  | call hdepth hnext hd => exact ⟨_, .call hdepth hnext hd, hstay _ _⟩
  | ret hstack hd => exact ⟨_, .ret hstack hd, hstay _ _⟩

/-- A step that completes a computing instruction does the same on any memory that agrees on the bytes it
reads. -/
theorem step_repeats {m : Machine} {memory memory' : Memory} {c : Core}
    (h : step ⟨m, memory⟩ = (.ok none, c)) (hagrees : memory.Agrees memory' m.reads) :
    ∃ c', step ⟨m, memory'⟩ = (.ok none, c') ∧ c.Repeats c' memory' m.writes := by
  obtain ⟨address, op, m₁, haddress, hm, hend⟩ := (step_eq_ok_iff _ _ _).mp h
  change m.fetched? = some (op, m₁) at hm
  rcases hend with ⟨hop, -, hc⟩ | ⟨-, hnone, -⟩
  · simp only [Machine.reads, Machine.writes, hm] at hagrees ⊢
    obtain ⟨c', hc', hrep⟩ := hc.repeats hagrees
    exact ⟨c', (step_eq_ok_iff _ _ _).mpr ⟨address, op, m₁, haddress, hm, .inl ⟨hop, rfl, hc'⟩⟩, hrep⟩
  · cases hnone

/-- A step leaves the bytes alone that it does not write. -/
theorem step_frame {c c' : Core} (h : c.step = (.ok none, c')) :
    c'.memory.size = c.memory.size ∧
      ∀ k, k ∉ c.machine.writes → c'.memory.cells[k]? = c.memory.cells[k]? := by
  obtain ⟨c₁, hstep, hrep⟩ := step_repeats h ⟨rfl, fun _ _ => rfl⟩
  rw [h] at hstep
  cases hstep
  refine ⟨hrep.size, ?_⟩
  intro k hk
  rw [hrep.cells k, if_neg hk]

end Core

end PrefixVM
