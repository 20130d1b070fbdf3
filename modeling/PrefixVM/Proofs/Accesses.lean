import PrefixVM.Process.Step
import PrefixVM.Proofs.Effects

/-!
Accesses to memory. One rule decides about all of them: the bytes of the access have to lie inside the memory,
and an access that does not succeed names its address, its length and the size of the memory. A write replaces
the bytes of its access and no others; what a later read answers follows from the bytes that it finds. A machine or
a process that tries to write goes on with the memory as it was if the write fails.
-/
namespace PrefixVM

namespace Memory

/-- The `count` bytes at an address lie inside the memory. The end of the access is an integer, which does not
wrap around near the highest address. -/
def Covers (m : Memory) (address : Int64) (count : Nat) : Prop :=
  0 ≤ address.toInt ∧ address.toInt + count ≤ m.size

instance (m : Memory) (address : Int64) (count : Nat) : Decidable (m.Covers address count) :=
  inferInstanceAs (Decidable (_ ∧ _))

/-- What an access of `count` bytes at an address answers: a value with the property `P` if the memory covers
the access, and else the fault that names the access. -/
def Answers {α : Type} (m : Memory) (address : Int64) (count : Nat) (answer : Except Fault α)
    (P : α → Prop) : Prop :=
  if m.Covers address count then ∃ a, answer = .ok a ∧ P a
  else answer = .error (.memoryRange address count m.size)

/-- The `count` bytes from `start` on. -/
def bytesAt (m : Memory) (start count : Nat) : Bytes :=
  (List.range count).map fun i => m.cells.getD (start + i) 0

/-- The lowest `count` bytes of a number, least significant first. -/
def lowBytes (v : Int64) (count : Nat) : Bytes :=
  (List.range count).map fun i => UInt8.ofNat (v.toUInt64.toNat / 256 ^ i)

/-- `m'` holds the given bytes from `start` on, and everywhere else what `m` holds. -/
structure Receives (m : Memory) (start : Nat) (bytes : Bytes) (m' : Memory) : Prop where
  size : m'.size = m.size
  cells : ∀ k, m'.cells[k]? =
    if start ≤ k ∧ k < start + bytes.length then bytes[k - start]? else m.cells[k]?

/-- Byte `k` of the memory once the given bytes have been written from `start` on. -/
def updated (m : Memory) (start : Nat) (bytes : Bytes) (k : Nat) : UInt8 :=
  if start ≤ k ∧ k < start + bytes.length then bytes.getD (k - start) 0 else m.cells.getD k 0

/-- Writes single bytes one after the other. -/
def writeEach (m : Memory) : List (Int64 × UInt8) → Except Fault Memory
  | [] => .ok m
  | (address, b) :: rest => do (← m.write address .byte (Int64.ofNat b.toNat)).writeEach rest

/-- The memory after a write, which leaves it as it is if it fails. -/
def afterWrite (m : Memory) (address : Int64) (width : Width) (v : Int64) : Memory :=
  match m.write address width v with
  | .ok m' => m'
  | .error _ => m

/-- The rules of the accesses to a memory. -/
structure LawfulAccess (m : Memory) : Prop where
  read : ∀ address width, m.Answers address width.bytes (m.read address width) fun v =>
    v = Int64.ofNat (m.number address.toInt.toNat width.bytes)
  write : ∀ address width v, m.Answers address width.bytes (m.write address width v) fun m' =>
    m.Receives address.toInt.toNat (lowBytes v width.bytes) m'
  readBytes : ∀ address count, m.Answers address count (m.readBytes address count) fun bytes =>
    bytes = m.bytesAt address.toInt.toNat count
  writeBytes : ∀ address bytes, m.Answers address bytes.length (m.writeBytes address bytes) fun m' =>
    m.Receives address.toInt.toNat bytes m'
  check : ∀ address count, m.Answers address count (m.check address count) fun _ => True
  /-- Reading a number back keeps it modulo the numbers of its width. -/
  read_same : ∀ {address width v m'}, m.write address width v = .ok m' →
    m'.read address width = .ok (Int64.ofInt (v.toInt % 2 ^ (8 * width.bytes)))
  /-- Any read after a write answers the number in the updated bytes, wherever it overlaps the write. -/
  read_any : ∀ {address width v m'}, m.write address width v = .ok m' → ∀ place wide,
    m.Answers place wide.bytes (m'.read place wide) fun u =>
      u = Int64.ofNat (∑ i ∈ Finset.range wide.bytes,
        (m.updated address.toInt.toNat (lowBytes v width.bytes) (place.toInt.toNat + i)).toNat * 256 ^ i)
  /-- Bytes that are read together are those that are read one by one. -/
  read_each : ∀ {address count bytes}, m.readBytes address count = .ok bytes →
    bytes.length = count ∧ ∀ (i : Nat) (a : Int64) (b : UInt8), a.toInt = address.toInt + i →
      bytes[i]? = some b → m.read a .byte = .ok (Int64.ofNat b.toNat)
  /-- Bytes that are written together leave the same memory as those that are written one by one. -/
  write_each : ∀ {address bytes m'}, m.writeBytes address bytes = .ok m' → ∀ as : List Int64,
    as.length = bytes.length → (∀ (i : Nat) (a : Int64), as[i]? = some a → a.toInt = address.toInt + i) →
      m.writeEach (as.zip bytes) = .ok m'
  /-- A machine that stores a value through a pointer goes on with the memory after the write. If the write fails, so
  does the store, and the machine and its memory are as they were. -/
  machine_store : ∀ {c : Core} {index : Nat} {width : Width} {base : UInt8} {address : Int64}, c.memory = m →
    c.machine.decoder.record.arg? index = some (.memory width base) →
    c.machine.registers[base.toNat]? = some address → ∀ v,
      (Exec.setArg index v).run c =
        if m.Covers address width.bytes then .ok () { c with memory := m.afterWrite address width v }
        else .error (.memoryRange address width.bytes m.size) c
  /-- So does a process that stores the result of a service. -/
  served_store : ∀ {p : Process} {t : Thread} {index : Nat} {width : Width} {base : UInt8} {address : Int64},
    p.memory = m → t.machine.decoder.record.arg? index = some (.memory width base) →
    t.machine.registers[base.toNat]? = some address → ∀ i v,
      (p.storeResult i t index v).memory = m.afterWrite address width v

section Placing

variable {m : Memory} {address : Int64} {count : Nat}

theorem place_eq (m : Memory) (address : Int64) (count : Nat) :
    m.place address count = if m.Covers address count then .ok address.toInt.toNat
      else .error (.memoryRange address count m.size) := by
  have hcovers : m.Covers address count ↔
      0 ≤ address.toInt ∧ address.toInt.toNat + count ≤ m.size := by
    rw [Covers]
    omega
  rw [place]
  simp only [hcovers]

theorem answers_place {α : Type} (f : Nat → α) {P : α → Prop}
    (hP : m.Covers address count → P (f address.toInt.toNat)) :
    m.Answers address count (m.place address count >>= fun start => pure (f start)) P := by
  rw [Answers, place_eq]
  split
  next hcovers => exact ⟨_, rfl, hP hcovers⟩
  next => rfl

/-- An access that has succeeded is one that the memory covers, with an answer as promised. -/
theorem Answers.of_ok {α : Type} {answer : Except Fault α} {P : α → Prop} {a : α}
    (h : m.Answers address count answer P) (ha : answer = .ok a) : m.Covers address count ∧ P a := by
  rw [Answers, ha] at h
  split at h
  next hcovers =>
    obtain ⟨b, hb, hP⟩ := h
    obtain rfl := Except.ok.inj hb
    exact ⟨hcovers, hP⟩
  next => cases h

theorem Answers.eq_ok {α : Type} {answer : Except Fault α} {a : α}
    (h : m.Answers address count answer (· = a)) (hcovers : m.Covers address count) : answer = .ok a := by
  rw [Answers, if_pos hcovers] at h
  obtain ⟨b, hb, rfl⟩ := h
  exact hb

theorem Covers.end_le (h : m.Covers address count) : address.toInt.toNat + count ≤ m.size := by
  have hlow := h.1
  have hhigh := h.2
  omega

end Placing

section Bytes

variable {m m' : Memory} {start count : Nat} {bytes : Bytes}

theorem getElem?_map_range (f : Nat → UInt8) (count i : Nat) :
    ((List.range count).map f)[i]? = if i < count then some (f i) else none := by
  rw [List.getElem?_map]
  by_cases hi : i < count
  · rw [List.getElem?_range hi, if_pos hi, Option.map_some]
  · have hlen : (List.range count).length ≤ i := by
      rw [List.length_range]
      omega
    rw [List.getElem?_eq_none hlen, if_neg hi, Option.map_none]

@[simp] theorem length_bytesAt (m : Memory) (start count : Nat) : (m.bytesAt start count).length = count := by
  rw [bytesAt, List.length_map, List.length_range]

@[simp] theorem length_lowBytes (v : Int64) (count : Nat) : (lowBytes v count).length = count := by
  rw [lowBytes, List.length_map, List.length_range]

theorem getElem?_bytesAt (m : Memory) (start count i : Nat) :
    (m.bytesAt start count)[i]? = if i < count then some (m.cells.getD (start + i) 0) else none :=
  getElem?_map_range _ count i

theorem load_eq_bytesAt (h : start + count ≤ m.size) : load m.cells start count = m.bytesAt start count := by
  have hsize : start + count ≤ m.cells.size := h
  apply List.ext_getElem?
  intro i
  rw [getElem?_bytesAt, load, Array.getElem?_toList, Array.getElem?_extract]
  by_cases hi : i < count
  · have hinside : start + i < m.cells.size := by omega
    rw [if_pos (by omega), if_pos hi, Array.getD_eq_getD_getElem?, Array.getElem?_eq_getElem hinside,
      Option.getD_some]
  · rw [if_neg (by omega), if_neg hi]

theorem ofNatLE_eq_lowBytes (v : Int64) (count : Nat) :
    Bytes.ofNatLE count v.toUInt64.toNat = lowBytes v count := by
  apply List.ext_getElem?
  intro i
  rw [Bytes.getElem?_ofNatLE, lowBytes, getElem?_map_range]

theorem receives_store (h : start + bytes.length ≤ m.size) :
    m.Receives start bytes ⟨store m.cells start bytes⟩ where
  size := size_store _ _ _
  cells k := by
    have hget := getElem?_store m.cells start bytes k h
    simp only [List.mem_range'_1] at hget
    exact hget

/-- What a memory receives leaves nothing about it open. -/
theorem Receives.unique {m'' : Memory} (h : m.Receives start bytes m') (h' : m.Receives start bytes m'') :
    m' = m'' := by
  apply ext_getElem?
  intro k
  rw [h.cells k, h'.cells k]

theorem Receives.getD_cells (h : m.Receives start bytes m') (k : Nat) :
    m'.cells.getD k 0 = m.updated start bytes k := by
  rw [Array.getD_eq_getD_getElem?, h.cells k, updated]
  split
  next => rw [List.getD_eq_getElem?_getD]
  next => rw [Array.getD_eq_getD_getElem?]

theorem Receives.number_eq (h : m.Receives start bytes m') (first count : Nat) :
    m'.number first count = ∑ i ∈ Finset.range count, (m.updated start bytes (first + i)).toNat * 256 ^ i := by
  apply Finset.sum_congr rfl
  intro i _
  rw [h.getD_cells]

/-- The number in the bytes that a memory has received. -/
theorem Receives.number_self (h : m.Receives start bytes m') :
    m'.number start bytes.length = Bytes.toNatLE bytes := by
  rw [h.number_eq, Bytes.toNatLE_eq_sum]
  apply Finset.sum_congr rfl
  intro i hi
  have hi : i < bytes.length := Finset.mem_range.mp hi
  have hupdated : m.updated start bytes (start + i) = bytes.getD i 0 := by
    rw [updated, if_pos (by omega), Nat.add_sub_cancel_left]
  rw [hupdated]

end Bytes

section Widths

variable {m : Memory} {address : Int64}

/-- The residues of a number and of its bit pattern are the same, as every width divides 64 bits. -/
theorem ofNat_mod_eq_ofInt_emod (v : Int64) (width : Width) :
    Int64.ofNat (v.toUInt64.toNat % 256 ^ width.bytes) =
      Int64.ofInt (v.toInt % 2 ^ (8 * width.bytes)) := by
  have hdvd : (2 : Int) ^ (8 * width.bytes) ∣ 2 ^ 64 := by
    apply pow_dvd_pow
    cases width <;> decide
  -- the number and its pattern differ by a multiple of 2^64
  have hpattern : v.toInt % 2 ^ 64 = (v.toUInt64.toNat : Int) % 2 ^ 64 := by
    have hbmod : v.toInt = (v.toUInt64.toNat : Int).bmod (2 ^ 64) := BitVec.toInt_eq_toNat_bmod v.toBitVec
    have hemod := Int.bmod_emod (x := (v.toUInt64.toNat : Int)) (m := 2 ^ 64)
    rw [← hbmod] at hemod
    exact_mod_cast hemod
  have hresidue : v.toInt % 2 ^ (8 * width.bytes) =
      (v.toUInt64.toNat : Int) % 2 ^ (8 * width.bytes) :=
    calc v.toInt % 2 ^ (8 * width.bytes)
        = v.toInt % 2 ^ 64 % 2 ^ (8 * width.bytes) := (Int.emod_emod_of_dvd _ hdvd).symm
      _ = (v.toUInt64.toNat : Int) % 2 ^ 64 % 2 ^ (8 * width.bytes) := by rw [hpattern]
      _ = (v.toUInt64.toNat : Int) % 2 ^ (8 * width.bytes) := Int.emod_emod_of_dvd _ hdvd
  have hbase : 256 ^ width.bytes = 2 ^ (8 * width.bytes) := (pow_mul 2 8 width.bytes).symm
  rw [hresidue, hbase, ← Int64.ofInt_eq_ofNat, Int.natCast_emod, Nat.cast_pow, Nat.cast_ofNat]

theorem read_answers (m : Memory) (address : Int64) (width : Width) :
    m.Answers address width.bytes (m.read address width) fun v =>
      v = Int64.ofNat (m.number address.toInt.toNat width.bytes) := by
  have hread : m.read address width = m.place address width.bytes >>= fun start =>
      pure (Int64.ofNat (Bytes.toNatLE (load m.cells start width.bytes))) := by
    unfold read readBytes
    cases m.place address width.bytes <;> rfl
  rw [hread]
  apply answers_place
  intro hcovers
  rw [toNatLE_load hcovers.end_le]

theorem write_answers (m : Memory) (address : Int64) (width : Width) (v : Int64) :
    m.Answers address width.bytes (m.write address width v) fun m' =>
      m.Receives address.toInt.toNat (lowBytes v width.bytes) m' := by
  apply answers_place
  intro hcovers
  rw [put, ofNatLE_eq_lowBytes]
  apply receives_store
  rw [length_lowBytes]
  exact hcovers.end_le

theorem readBytes_answers (m : Memory) (address : Int64) (count : Nat) :
    m.Answers address count (m.readBytes address count) fun bytes =>
      bytes = m.bytesAt address.toInt.toNat count :=
  answers_place (fun start => load m.cells start count) fun hcovers => load_eq_bytesAt hcovers.end_le

theorem writeBytes_answers (m : Memory) (address : Int64) (bytes : Bytes) :
    m.Answers address bytes.length (m.writeBytes address bytes) fun m' =>
      m.Receives address.toInt.toNat bytes m' :=
  answers_place (fun start => Memory.mk (store m.cells start bytes)) fun hcovers =>
    receives_store hcovers.end_le

theorem check_answers (m : Memory) (address : Int64) (count : Nat) :
    m.Answers address count (m.check address count) fun _ => True :=
  answers_place (fun _ => ()) fun _ => trivial

theorem number_byte (m : Memory) (start : Nat) : m.number start 1 = (m.cells.getD start 0).toNat := by
  rw [number, Finset.sum_range_one, Nat.add_zero, pow_zero, mul_one]

/-- Reads of single bytes answer the bytes. -/
theorem read_byte {k : Nat} (hk : k < m.size) (haddress : address.toInt = k) :
    m.read address .byte = .ok (Int64.ofNat (m.cells.getD k 0).toNat) := by
  have hcovers : m.Covers address Width.byte.bytes := by
    rw [Covers, haddress]
    change 0 ≤ (k : Int) ∧ (k : Int) + 1 ≤ m.size
    omega
  have hread := (m.read_answers address .byte).eq_ok hcovers
  have hstart : address.toInt.toNat = k := by omega
  have hnumber : m.number k Width.byte.bytes = (m.cells.getD k 0).toNat := m.number_byte k
  rw [hread, hstart, hnumber]

/-- A write of a single byte replaces that byte. -/
theorem write_byte {k : Nat} (hk : k < m.size) (haddress : address.toInt = k) (b : UInt8) :
    m.write address .byte (Int64.ofNat b.toNat) = .ok ⟨m.cells.setIfInBounds k b⟩ := by
  have hplace : m.place address Width.byte.bytes = .ok k :=
    place_eq_ok_iff_toInt.mpr ⟨haddress, hk⟩
  have hb : UInt8.ofNat (Int64.ofNat b.toNat).toUInt64.toNat = b := by
    have hlt := b.toNat_lt
    apply UInt8.toNat.inj
    change b.toNat % 2 ^ 64 % 2 ^ 8 = b.toNat
    omega
  rw [write, hplace]
  change Except.ok (Memory.mk (m.cells.setIfInBounds k (UInt8.ofNat _))) = _
  rw [hb]

/-- Writing byte by byte takes the same steps as writing all bytes together. -/
theorem writeEach_zip {start : Nat} {bytes : Bytes} (h : start + bytes.length ≤ m.size) {as : List Int64}
    (hlength : as.length = bytes.length)
    (has : ∀ (i : Nat) (a : Int64), as[i]? = some a → a.toInt = (start : Int) + i) :
    m.writeEach (as.zip bytes) = .ok ⟨store m.cells start bytes⟩ := by
  induction bytes generalizing m start as with
  | nil =>
    obtain rfl := List.eq_nil_of_length_eq_zero hlength
    rfl
  | cons b rest ih =>
    -- the first byte goes to its place, and the rest is written one place further up into what that leaves
    rw [List.length_cons] at h hlength
    obtain ⟨a, as, rfl⟩ := List.exists_cons_of_length_eq_add_one hlength
    have ha : a.toInt = start := by
      have hfirst := has 0 a rfl
      omega
    have hwrite := write_byte (m := m) (by omega) ha b
    have hnext (i : Nat) (a' : Int64) (hi : as[i]? = some a') : a'.toInt = ((start + 1 : Nat) : Int) + i := by
      have hlater := has (i + 1) a' hi
      omega
    rw [List.length_cons] at hlength
    have hsize : start + 1 + rest.length ≤ (Memory.mk (m.cells.setIfInBounds start b)).size := by
      change start + 1 + rest.length ≤ (m.cells.setIfInBounds start b).size
      rw [Array.size_setIfInBounds]
      have hcells : start + (rest.length + 1) ≤ m.cells.size := h
      omega
    have hrest := ih hsize (Nat.succ.inj hlength) hnext
    rw [List.zip_cons_cons, writeEach, hwrite]
    exact hrest

end Widths

section Sequences

variable {m m' : Memory} {address : Int64} {width : Width} {v : Int64}

/-- The number that a write has left in its own bytes. -/
theorem number_of_write (h : m.write address width v = .ok m') :
    m'.number address.toInt.toNat width.bytes = v.toUInt64.toNat % 256 ^ width.bytes := by
  obtain ⟨-, hreceives⟩ := (m.write_answers address width v).of_ok h
  have hself := hreceives.number_self
  rw [length_lowBytes, ← ofNatLE_eq_lowBytes, Bytes.toNatLE_ofNatLE] at hself
  exact hself

theorem read_same_of_write (h : m.write address width v = .ok m') :
    m'.read address width = .ok (Int64.ofInt (v.toInt % 2 ^ (8 * width.bytes))) := by
  obtain ⟨hcovers, hreceives⟩ := (m.write_answers address width v).of_ok h
  have hcovers' : m'.Covers address width.bytes := by
    rw [Covers, hreceives.size]
    exact hcovers
  have hread := (m'.read_answers address width).eq_ok hcovers'
  rw [hread, number_of_write h, ofNat_mod_eq_ofInt_emod]

theorem read_any_of_write (h : m.write address width v = .ok m') (place : Int64) (wide : Width) :
    m.Answers place wide.bytes (m'.read place wide) fun u =>
      u = Int64.ofNat (∑ i ∈ Finset.range wide.bytes,
        (m.updated address.toInt.toNat (lowBytes v width.bytes) (place.toInt.toNat + i)).toNat * 256 ^ i) := by
  obtain ⟨-, hreceives⟩ := (m.write_answers address width v).of_ok h
  have hread := m'.read_answers place wide
  -- the memory has kept its size, so both cover the same accesses
  simp only [Answers, Covers, hreceives.size, hreceives.number_eq] at hread
  exact hread

theorem read_byte_of_readBytes {count : Nat} {bytes : Bytes} (h : m.readBytes address count = .ok bytes)
    {i : Nat} {a : Int64} {b : UInt8} (ha : a.toInt = address.toInt + i) (hb : bytes[i]? = some b) :
    m.read a .byte = .ok (Int64.ofNat b.toNat) := by
  obtain ⟨hcovers, rfl⟩ := (m.readBytes_answers address count).of_ok h
  rw [getElem?_bytesAt] at hb
  split at hb
  next hi =>
    obtain rfl := Option.some.inj hb
    have hend := hcovers.end_le
    have hlow := hcovers.1
    apply read_byte
    · omega
    · omega
  next => cases hb

theorem writeEach_of_writeBytes {bytes : Bytes} (h : m.writeBytes address bytes = .ok m') {as : List Int64}
    (hlength : as.length = bytes.length)
    (has : ∀ (i : Nat) (a : Int64), as[i]? = some a → a.toInt = address.toInt + i) :
    m.writeEach (as.zip bytes) = .ok m' := by
  obtain ⟨hcovers, hreceives⟩ := (m.writeBytes_answers address bytes).of_ok h
  have hend := hcovers.end_le
  have hlow := hcovers.1
  have hplaces (i : Nat) (a : Int64) (hi : as[i]? = some a) : a.toInt = (address.toInt.toNat : Int) + i := by
    have ha := has i a hi
    omega
  rw [writeEach_zip hend hlength hplaces, (receives_store hend).unique hreceives]

end Sequences

theorem write_eq (m : Memory) (address : Int64) (width : Width) (v : Int64) :
    m.write address width v = if m.Covers address width.bytes then .ok (m.put address.toInt.toNat width v)
      else .error (.memoryRange address width.bytes m.size) := by
  rw [write, place_eq]
  split <;> rfl

end Memory

namespace Machine

/-- A pointer leads to its bytes as far as the memory covers them. -/
theorem destination_of_memory {m : Machine} {memory : Memory} {index : Nat} {width : Width} {base : UInt8}
    {address : Int64} (harg : m.decoder.record.arg? index = some (.memory width base))
    (hregister : m.registers[base.toNat]? = some address) :
    m.destination memory index = if memory.Covers address width.bytes then .ok (.cells address.toInt.toNat width)
      else .error (.memoryRange address width.bytes memory.size) := by
  unfold destination operand
  rw [harg]
  change (m.register base >>= fun address => memory.place address width.bytes >>= fun start =>
    pure (Destination.cells start width)) = _
  rw [register, hregister]
  change (memory.place address width.bytes >>= fun start => pure (Destination.cells start width)) = _
  rw [Memory.place_eq]
  split <;> rfl

end Machine

namespace Memory

section Stores

variable {index : Nat} {width : Width} {base : UInt8} {address : Int64}

theorem setArg_run_of_memory {c : Core}
    (harg : c.machine.decoder.record.arg? index = some (.memory width base))
    (hregister : c.machine.registers[base.toNat]? = some address) (v : Int64) :
    (Exec.setArg index v).run c =
      if c.memory.Covers address width.bytes then
        .ok () { c with memory := c.memory.afterWrite address width v }
      else .error (.memoryRange address width.bytes c.memory.size) c := by
  rw [Exec.setArg_run, Machine.destination_of_memory harg hregister, afterWrite, write_eq]
  by_cases hcovers : c.memory.Covers address width.bytes
  · simp only [if_pos hcovers]
    rfl
  · simp only [if_neg hcovers]

theorem memory_storeResult {p : Process} {t : Thread}
    (harg : t.machine.decoder.record.arg? index = some (.memory width base))
    (hregister : t.machine.registers[base.toNat]? = some address) (i : Nat) (v : Int64) :
    (p.storeResult i t index v).memory = p.memory.afterWrite address width v := by
  rw [Process.storeResult, Machine.destination_of_memory harg hregister, afterWrite, write_eq]
  by_cases hcovers : p.memory.Covers address width.bytes
  · simp only [if_pos hcovers]
    rfl
  · simp only [if_neg hcovers]
    rfl

end Stores

/-- Every memory answers every access by the rules, for all addresses, widths and values. -/
theorem lawful_access (m : Memory) : m.LawfulAccess where
  read := m.read_answers
  write := m.write_answers
  readBytes := m.readBytes_answers
  writeBytes := m.writeBytes_answers
  check := m.check_answers
  read_same h := read_same_of_write h
  read_any h := read_any_of_write h
  read_each {address count bytes} h := by
    obtain ⟨-, hbytes⟩ := (m.readBytes_answers address count).of_ok h
    have hlength : bytes.length = count := by rw [hbytes, length_bytesAt]
    exact ⟨hlength, fun i a b ha hb => read_byte_of_readBytes h ha hb⟩
  write_each h as hlength has := writeEach_of_writeBytes h hlength has
  machine_store hm harg hregister v := by
    subst hm
    exact setArg_run_of_memory harg hregister v
  served_store hm harg hregister i v := by
    subst hm
    exact memory_storeResult harg hregister i v

-- the end of an access at the highest address does not wrap around to the start of the memory
example : ¬ (zeros 8).Covers Int64.maxValue 8 ∧ (zeros 8).Covers 0 8 := by
  decide

end Memory

end PrefixVM
