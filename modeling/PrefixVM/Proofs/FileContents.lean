import PrefixVM.Process.Step
import PrefixVM.Proofs.Accesses

/-!
What a data file contains. An open file is a flat array of bytes: a write replaces the bytes of its range and
extends the file where the range goes beyond its end, a read copies what there is of its range to memory. What a
file contains after any number of reads and writes is therefore decided byte by byte, by the last write that
covered the byte. The system that keeps the file may set a limit to its length; all of this holds for any limit,
and where there is none, no write is refused.
-/
namespace PrefixVM

namespace FileLimit

/-- A file may get this long. -/
def Allows (limit : Option FileLimit) (length : Nat) : Prop :=
  ∀ l, limit = some l → length ≤ l.length

end FileLimit

namespace DataFile

/-- The open file with the given content, under a limit to its length. -/
def opened (limit : Option FileLimit) (f : Bytes) : DataFile :=
  { slot := .regular f, isOpen := true, limit }

/-- `g` is the content `f` after the given bytes have been written at `offset`. -/
structure Written (f : Bytes) (offset : Nat) (data g : Bytes) : Prop where
  length : g.length = max f.length (offset + data.length)
  inside : ∀ i, i < data.length → g[offset + i]? = data[i]?
  gap : ∀ k, f.length ≤ k → k < offset → g[k]? = some 0
  outside : ∀ k, k < f.length → k < offset ∨ offset + data.length ≤ k → g[k]? = f[k]?

/-- How many of the `count` bytes at `offset` there are before the end of the content. -/
def remaining (f : Bytes) (offset count : Int64) : Nat :=
  min count.toInt.toNat (f.length - offset.toInt.toNat)

/-- The bytes that a read of `count` bytes at `offset` transfers. -/
def portion (f : Bytes) (offset count : Int64) : Bytes :=
  (f.drop offset.toInt.toNat).take count.toInt.toNat

/-- What a read does that succeeds, with the number that it answers: it copies all bytes that there are of its range
to memory, and nothing if there are none or the file is closed. -/
inductive Copied (file : DataFile) (offset count : Int64) (m : Memory) (address : Int64) :
    Int64 → Memory → Prop
  | nothing (h : ∀ limit f, file = opened limit f →
      ¬ (0 ≤ offset.toInt ∧ 0 < count.toInt ∧ offset.toInt < f.length)) : Copied file offset count m address 0 m
  | bytes {limit : Option FileLimit} {f : Bytes} {transferred : Int64} {m' : Memory}
    (hfile : file = opened limit f) (hrange : 0 ≤ offset.toInt ∧ 0 < count.toInt ∧ offset.toInt < f.length)
    (hcovers : m.Covers address (remaining f offset count))
    (htransferred : transferred.toInt = remaining f offset count)
    (hreceives : m.Receives address.toInt.toNat (portion f offset count) m') :
    Copied file offset count m address transferred m'

/-- The system did what it was asked for, whether or not the operation came that far. -/
def Granted {α : Type} (answer : Except Fault α) : Prop :=
  ∀ reason, answer ≠ .error (.io reason)

/-- Bytes that have been written to a file. -/
structure Patch where
  offset : Nat
  data : Bytes

namespace Patch

/-- The content after a patch. -/
def apply (f : Bytes) (p : Patch) : Bytes :=
  splice f p.offset p.data

def Covers (p : Patch) (k : Nat) : Prop :=
  p.offset ≤ k ∧ k < p.offset + p.data.length

instance (p : Patch) (k : Nat) : Decidable (p.Covers k) :=
  inferInstanceAs (Decidable (_ ∧ _))

/-- Byte `k` after a patch to a content with this byte. -/
def byteAfter (k : Nat) (b : UInt8) (p : Patch) : UInt8 :=
  if p.Covers k then p.data.getD (k - p.offset) 0 else b

/-- The length of a content after a patch. -/
def stretch (n : Nat) (p : Patch) : Nat :=
  max n (p.offset + p.data.length)

end Patch

/-- A file and the memory that it exchanges bytes with. -/
structure Storage where
  file : DataFile
  memory : Memory

inductive Transfer where
  | read (offset count address : Int64)
  | write (offset count address : Int64)
  /-- Between two transfers the memory may change in any way. -/
  | compute (memory : Memory)

namespace Storage

/-- A transfer that fails leaves both as they were. -/
def after (s : Storage) : Transfer → Storage
  | .read offset count address =>
    match s.file.read offset count s.memory address with
    | .ok (_, memory) => { s with memory }
    | .error _ => s
  | .write offset count address =>
    match s.file.write offset count s.memory address with
    | .ok file => { s with file }
    | .error _ => s
  | .compute memory => { s with memory }

def run (s : Storage) (transfers : List Transfer) : Storage :=
  transfers.foldl after s

/-- What a transfer writes to the file, if it writes. -/
def patch? (s : Storage) : Transfer → Option Patch
  | .write offset count address =>
    match s.file.write offset count s.memory address with
    | .ok _ => some ⟨offset.toInt.toNat, s.memory.bytesAt address.toInt.toNat count.toInt.toNat⟩
    | .error _ => none
  | _ => none

/-- All that has been written to the file, in order. -/
def patches (s : Storage) : List Transfer → List Patch
  | [] => []
  | t :: rest => (s.patch? t).toList ++ (s.after t).patches rest

end Storage

end DataFile

/-- The file and the memory of a process. -/
def Process.storage (p : Process) : DataFile.Storage :=
  { file := p.file, memory := p.memory }

namespace DataFile

/-- The rules of an open file with content `f`, whatever its limit. -/
structure FlatArray (limit : Option FileLimit) (f : Bytes) : Prop where
  write : ∀ (offset count : Int64) (m : Memory) (address : Int64),
    Granted ((opened limit f).write offset count m address) →
      if offset.toInt < 0 then
        (opened limit f).write offset count m address = .error (.fileOffset offset)
      else
        m.Answers address count.toInt.toNat ((opened limit f).write offset count m address) fun file =>
          ∃ g, file = opened limit g ∧
            Written f offset.toInt.toNat (m.bytesAt address.toInt.toNat count.toInt.toNat) g
  /-- The system grants every write within its limit, and every write at all if it sets none. -/
  granted : ∀ (offset count : Int64) (m : Memory) (address : Int64),
    FileLimit.Allows limit (offset.toInt.toNat + count.toInt.toNat) →
      Granted ((opened limit f).write offset count m address)
  read : ∀ (offset count : Int64) (m : Memory) (address : Int64),
    if 0 ≤ offset.toInt ∧ 0 < count.toInt ∧ offset.toInt < f.length then
      m.Answers address (remaining f offset count) ((opened limit f).read offset count m address) fun answer =>
        answer.1.toInt = remaining f offset count ∧
          m.Receives address.toInt.toNat (portion f offset count) answer.2
    else (opened limit f).read offset count m address = .ok (0, m)
  /-- A process that serves a read or a write carries out this transfer, and keeps file and memory if it fails. -/
  served_read : ∀ {p : Process} {machine : Machine} {offset count address : Int64},
    Process.transferArgs machine p.memory = .ok (offset, count, address) → ∀ i,
      (p.readFile i machine).storage = p.storage.after (.read offset count address)
  served_write : ∀ {p : Process} {machine : Machine} {offset count address : Int64},
    Process.transferArgs machine p.memory = .ok (offset, count, address) → ∀ i,
      (p.writeFile i machine).storage = p.storage.after (.write offset count address)
  /-- After any transfers each byte is the one that was written last, and the first content where none was. -/
  run : ∀ (m : Memory) (transfers : List Transfer),
    let s : Storage := { file := opened limit f, memory := m }
    ∃ g, (s.run transfers).file = opened limit g ∧
      g.length = (s.patches transfers).foldl Patch.stretch f.length ∧
      ∀ k, g.getD k 0 = (s.patches transfers).foldl (Patch.byteAfter k) (f.getD k 0)
  /-- What a write has left is what a read of the same range copies to memory, whatever comes before and between,
  as long as nothing is written over it. -/
  read_back : ∀ (m : Memory) (transfers : List Transfer) (offset count source : Int64) (later : List Transfer),
    let s := Storage.run { file := opened limit f, memory := m } transfers
    let t := s.after (.write offset count source)
    0 < count.toInt → ∀ patch, s.patch? (.write offset count source) = some patch →
      (∀ p ∈ t.patches later, ∀ k, patch.Covers k → ¬ p.Covers k) → ∀ target,
        (t.run later).memory.Answers target count.toInt.toNat
          ((t.run later).file.read offset count (t.run later).memory target) fun answer =>
            answer.1 = count ∧ (t.run later).memory.Receives target.toInt.toNat
              (s.memory.bytesAt source.toInt.toNat count.toInt.toNat) answer.2

end DataFile

namespace FileLimit

variable {limit : Option FileLimit} {length : Nat}

theorem grant_of_allows (h : Allows limit length) : grant limit length = .ok () := by
  unfold grant
  split
  next => rfl
  next l => rw [if_neg (Nat.not_lt.mpr (h l rfl))]

theorem grant_cases (limit : Option FileLimit) (length : Nat) :
    grant limit length = .ok () ∨ ∃ reason, grant limit length = .error (.io reason) := by
  unfold grant
  split
  next => exact .inl rfl
  next l =>
    split
    next => exact .inr ⟨l.reason, rfl⟩
    next => exact .inl rfl

end FileLimit

namespace DataFile

section Content

variable {f data : Bytes} {offset : Nat}

theorem length_splice (f : Bytes) (offset : Nat) (data : Bytes) :
    (splice f offset data).length = max f.length (offset + data.length) := by
  simp only [splice, List.length_append, List.length_take, List.length_replicate, List.length_drop]
  omega

/-- In front of the data stands the content with its gap filled up, and behind it what the content has there. -/
theorem getElem?_splice (f : Bytes) (offset : Nat) (data : Bytes) (k : Nat) :
    (splice f offset data)[k]? =
      if k < offset then some (f.getD k 0)
      else if k < offset + data.length then data[k - offset]?
      else f[k]? := by
  have hfront : (f.take offset ++ List.replicate (offset - f.length) 0).length = offset := by
    rw [List.length_append, List.length_take, List.length_replicate]
    omega
  rw [splice, List.append_assoc]
  -- the front, as long as the offset, is content and then gap; the back is data and then content
  by_cases hk : k < offset
  · rw [if_pos hk, List.getElem?_append_left (by omega)]
    by_cases hf : k < f.length
    · have htake : k < (f.take offset).length := by
        rw [List.length_take]
        omega
      rw [List.getElem?_append_left htake, List.getElem?_take_of_lt hk, List.getD_eq_getElem?_getD,
        List.getElem?_eq_getElem hf, Option.getD_some]
    · have htake : (f.take offset).length = f.length := by
        rw [List.length_take]
        omega
      have hnone : f[k]? = none := List.getElem?_eq_none (by omega)
      rw [List.getElem?_append_right (by omega), htake, List.getElem?_replicate, if_pos (by omega),
        List.getD_eq_getElem?_getD, hnone, Option.getD_none]
  · rw [if_neg hk, List.getElem?_append_right (by omega), hfront]
    by_cases hdata : k < offset + data.length
    · rw [if_pos hdata, List.getElem?_append_left (by omega)]
    · have hplace : offset + data.length + (k - offset - data.length) = k := by omega
      rw [if_neg hdata, List.getElem?_append_right (by omega), List.getElem?_drop, hplace]

/-- Writing nothing fills a file that ends before the offset. -/
theorem splice_nil (f : Bytes) (offset : Nat) :
    splice f offset [] = f ++ List.replicate (offset - f.length) 0 := by
  rw [splice, List.append_nil, List.length_nil, Nat.add_zero]
  by_cases hlen : offset ≤ f.length
  · rw [Nat.sub_eq_zero_of_le hlen, List.replicate_zero, List.append_nil, List.append_nil,
      List.take_append_drop]
  · have hle : f.length ≤ offset := by omega
    rw [List.take_of_length_le hle, List.drop_eq_nil_of_le hle, List.append_nil]

theorem written_splice (f : Bytes) (offset : Nat) (data : Bytes) :
    Written f offset data (splice f offset data) where
  length := length_splice f offset data
  inside i hi := by
    rw [getElem?_splice, if_neg (by omega), if_pos (by omega), Nat.add_sub_cancel_left]
  gap k hlen hk := by
    have hnone : f[k]? = none := List.getElem?_eq_none hlen
    rw [getElem?_splice, if_pos hk, List.getD_eq_getElem?_getD, hnone, Option.getD_none]
  outside k hlen hk := by
    rw [getElem?_splice]
    split
    next => rw [List.getD_eq_getElem?_getD, List.getElem?_eq_getElem hlen, Option.getD_some]
    next hin => rw [if_neg (by omega)]

end Content

section Operations

variable {limit : Option FileLimit} {f : Bytes} {offset count address : Int64} {m : Memory} {file : DataFile}

/-- The checks of a write in their order: offset, memory, and then what the system says. -/
theorem write_opened (limit : Option FileLimit) (f : Bytes) (offset count : Int64) (m : Memory)
    (address : Int64) :
    (opened limit f).write offset count m address =
      if offset.toInt < 0 then .error (.fileOffset offset)
      else if m.Covers address count.toInt.toNat then
        (FileLimit.grant limit (offset.toInt.toNat + count.toInt.toNat)).map fun _ =>
          opened limit (splice f offset.toInt.toNat (m.bytesAt address.toInt.toNat count.toInt.toNat))
      else .error (.memoryRange address count.toInt.toNat m.size) := by
  have hsign : offset < 0 ↔ offset.toInt < 0 := Int64.lt_iff_toInt_lt
  have hread := m.readBytes_answers address count.toInt.toNat
  rw [Memory.Answers] at hread
  change writeContent limit f offset count m address >>= (fun g => pure (opened limit g)) = _
  unfold writeContent
  simp only [hsign]
  by_cases hneg : offset.toInt < 0
  · rw [if_pos hneg, if_pos hneg]
    rfl
  · rw [if_neg hneg, if_neg hneg]
    by_cases hcovers : m.Covers address count.toInt.toNat
    · rw [if_pos hcovers] at hread
      obtain ⟨data, hdata, rfl⟩ := hread
      rw [hdata, if_pos hcovers]
      change (FileLimit.grant limit (_ + (m.bytesAt _ _).length) >>= _) >>= _ = _
      rw [Memory.length_bytesAt]
      cases FileLimit.grant limit (offset.toInt.toNat + count.toInt.toNat) <;> rfl
    · rw [if_neg hcovers] at hread
      rw [hread, if_neg hcovers]
      rfl

theorem write_eq_ok (h : (opened limit f).write offset count m address = .ok file) :
    0 ≤ offset.toInt ∧ file =
      opened limit (splice f offset.toInt.toNat (m.bytesAt address.toInt.toNat count.toInt.toNat)) := by
  rw [write_opened] at h
  split_ifs at h with hneg
  cases hgrant : FileLimit.grant limit (offset.toInt.toNat + count.toInt.toNat) with
  | ok =>
    rw [hgrant] at h
    exact ⟨by omega, (Except.ok.inj h).symm⟩
  | error fault =>
    rw [hgrant] at h
    cases h

/-- Within its limit the system refuses nothing. -/
theorem granted_write (f : Bytes) (m : Memory) (address : Int64)
    (h : FileLimit.Allows limit (offset.toInt.toNat + count.toInt.toNat)) :
    Granted ((opened limit f).write offset count m address) := by
  intro reason hio
  rw [write_opened, FileLimit.grant_of_allows h] at hio
  split_ifs at hio <;> cases hio

theorem write_answers (h : Granted ((opened limit f).write offset count m address)) :
    if offset.toInt < 0 then
      (opened limit f).write offset count m address = .error (.fileOffset offset)
    else
      m.Answers address count.toInt.toNat ((opened limit f).write offset count m address) (· =
        opened limit (splice f offset.toInt.toNat (m.bytesAt address.toInt.toNat count.toInt.toNat))) := by
  rw [Memory.Answers]
  rw [write_opened] at h ⊢
  split_ifs at h ⊢ with hneg hcovers
  · rfl
  · -- whatever is not granted is refused with a reason
    rcases FileLimit.grant_cases limit (offset.toInt.toNat + count.toInt.toNat) with hgrant | ⟨reason, hgrant⟩
    · rw [hgrant]
      exact ⟨_, rfl, rfl⟩
    · rw [hgrant] at h
      exact absurd rfl (h reason)
  · rfl

theorem length_portion (f : Bytes) (offset count : Int64) :
    (portion f offset count).length = remaining f offset count := by
  rw [portion, remaining, List.length_take, List.length_drop]

theorem read_answers (limit : Option FileLimit) (f : Bytes) (offset count : Int64) (m : Memory) (address : Int64) :
    if 0 ≤ offset.toInt ∧ 0 < count.toInt ∧ offset.toInt < f.length then
      m.Answers address (remaining f offset count) ((opened limit f).read offset count m address) fun answer =>
        answer.1.toInt = remaining f offset count ∧
          m.Receives address.toInt.toNat (portion f offset count) answer.2
    else (opened limit f).read offset count m address = .ok (0, m) := by
  have hbody : (offset < 0 ∨ count ≤ 0 ∨ f.length ≤ offset.toInt.toNat) ↔
      ¬ (0 ≤ offset.toInt ∧ 0 < count.toInt ∧ offset.toInt < f.length) := by
    rw [Int64.lt_iff_toInt_lt, Int64.le_iff_toInt_le]
    change offset.toInt < 0 ∨ count.toInt ≤ 0 ∨ _ ↔ _
    omega
  -- an open file is read through its content
  change if _ then Memory.Answers _ _ _ (readContent f offset count m address) _
    else readContent f offset count m address = _
  unfold readContent
  simp only [hbody, ite_not]
  split
  next hinside =>
    have hwrite := m.writeBytes_answers address (portion f offset count)
    rw [length_portion] at hwrite
    -- a count is no more than the number asked for, and so fits its word
    have hcount : (Int64.ofNat (remaining f offset count)).toInt = remaining f offset count := by
      have hle : remaining f offset count ≤ count.toInt.toNat := Nat.min_le_left _ _
      have hlt := count.toInt_lt
      apply Int64.toInt_ofNat_of_lt
      omega
    rw [Memory.Answers] at hwrite ⊢
    change if _ then ∃ a, (m.writeBytes address (portion f offset count) >>= _) = _ ∧ _
      else (m.writeBytes address (portion f offset count) >>= _) = _
    split
    next hcovers =>
      rw [if_pos hcovers] at hwrite
      obtain ⟨m', hm', hreceives⟩ := hwrite
      rw [hm']
      refine ⟨_, rfl, ?_, hreceives⟩
      change (Int64.ofNat (portion f offset count).length).toInt = _
      rw [length_portion, hcount]
    next hcovers =>
      rw [if_neg hcovers] at hwrite
      rw [hwrite]
      rfl
  next => rfl

theorem eq_opened (h : file.content? = some f) : file = opened file.limit f := by
  obtain ⟨slot, isOpen, limit⟩ := file
  cases isOpen with
  | false => cases h
  | true =>
    cases slot with
    | regular content =>
      obtain rfl := Option.some.inj h
      rfl
    | absent | blocked => cases h

theorem opened_inj {limit' : Option FileLimit} {f' : Bytes} (h : opened limit f = opened limit' f') : f = f' :=
  FileSlot.regular.inj (congrArg slot h)

theorem copied_of_read {transferred : Int64} {m' : Memory}
    (h : file.read offset count m address = .ok (transferred, m')) :
    Copied file offset count m address transferred m' := by
  cases hcontent : file.content? with
  | none =>
    rw [read, hcontent] at h
    cases h
    apply Copied.nothing
    rintro limit f rfl
    cases hcontent
  | some f =>
    have hfile := eq_opened hcontent
    have hanswer := read_answers file.limit f offset count m address
    rw [← hfile] at hanswer
    split at hanswer
    next hrange =>
      obtain ⟨hcovers, htransferred, hreceives⟩ := hanswer.of_ok h
      exact .bytes hfile hrange hcovers htransferred hreceives
    next hrange =>
      rw [hanswer] at h
      cases h
      apply Copied.nothing
      intro limit f' hfile'
      rw [← opened_inj (hfile.symm.trans hfile')]
      exact hrange

/-- A range that lies inside the content is transferred as a whole. -/
theorem read_of_portion (limit : Option FileLimit) {data : Bytes} (hoffset : 0 ≤ offset.toInt)
    (hcount : 0 < count.toInt) (hdata : portion f offset count = data)
    (hlength : data.length = count.toInt.toNat) (m : Memory) (address : Int64) :
    m.Answers address count.toInt.toNat ((opened limit f).read offset count m address) fun answer =>
      answer.1 = count ∧ m.Receives address.toInt.toNat data answer.2 := by
  have hremaining : remaining f offset count = count.toInt.toNat := by
    rw [← length_portion, hdata, hlength]
  have hinside : offset.toInt < f.length := by
    rw [remaining] at hremaining
    omega
  have hcast : ((count.toInt.toNat : Nat) : Int) = count.toInt := Int.toNat_of_nonneg hcount.le
  have hanswer := read_answers limit f offset count m address
  rw [if_pos ⟨hoffset, hcount, hinside⟩, hremaining, hdata] at hanswer
  simp only [hcast, Int64.toInt_inj] at hanswer
  exact hanswer

end Operations

section Runs

variable {limit : Option FileLimit} {s : Storage} {f : Bytes}

theorem getD_apply (f : Bytes) (p : Patch) (k : Nat) : (p.apply f).getD k 0 = p.byteAfter k (f.getD k 0) := by
  rw [List.getD_eq_getElem?_getD, Patch.apply, getElem?_splice, Patch.byteAfter]
  by_cases hk : k < p.offset
  · rw [if_pos hk, if_neg (fun hcovers => absurd hcovers.1 (by omega)), Option.getD_some]
  · rw [if_neg hk]
    by_cases hend : k < p.offset + p.data.length
    · rw [if_pos hend, if_pos ⟨by omega, hend⟩, List.getD_eq_getElem?_getD]
    · rw [if_neg hend, if_neg (fun hcovers => hend hcovers.2), List.getD_eq_getElem?_getD]

theorem length_patched (f : Bytes) (ps : List Patch) :
    (ps.foldl Patch.apply f).length = ps.foldl Patch.stretch f.length := by
  induction ps generalizing f with
  | nil => rfl
  | cons p rest ih =>
    have hlength : (p.apply f).length = p.stretch f.length := length_splice _ _ _
    rw [List.foldl_cons, List.foldl_cons, ih, hlength]

theorem getD_patched (f : Bytes) (ps : List Patch) (k : Nat) :
    (ps.foldl Patch.apply f).getD k 0 = ps.foldl (Patch.byteAfter k) (f.getD k 0) := by
  induction ps generalizing f with
  | nil => rfl
  | cons p rest ih => rw [List.foldl_cons, List.foldl_cons, ih, getD_apply]

theorem le_stretched (n : Nat) (ps : List Patch) : n ≤ ps.foldl Patch.stretch n := by
  induction ps generalizing n with
  | nil => exact le_refl n
  | cons p rest ih => exact (Nat.le_max_left _ _).trans (ih _)

/-- Patches elsewhere leave a byte as it is. -/
theorem patched_of_not_covers {ps : List Patch} {k : Nat} (h : ∀ p ∈ ps, ¬ p.Covers k) (b : UInt8) :
    ps.foldl (Patch.byteAfter k) b = b := by
  induction ps with
  | nil => rfl
  | cons p rest ih =>
    have hover : p.byteAfter k b = b := if_neg (h p List.mem_cons_self)
    rw [List.foldl_cons, hover, ih fun q hq => h q (List.mem_cons_of_mem p hq)]

theorem patch?_write_eq_some {offset count address : Int64} {patch : Patch}
    (h : s.patch? (.write offset count address) = some patch) :
    (∃ file, s.file.write offset count s.memory address = .ok file) ∧
      patch = ⟨offset.toInt.toNat, s.memory.bytesAt address.toInt.toNat count.toInt.toNat⟩ := by
  rw [Storage.patch?] at h
  split at h
  next file hfile => exact ⟨⟨file, hfile⟩, (Option.some.inj h).symm⟩
  next => cases h

/-- A transfer changes the file by what it writes, and by nothing else. -/
theorem file_after (hs : s.file = opened limit f) (t : Transfer) :
    (s.after t).file = opened limit ((s.patch? t).toList.foldl Patch.apply f) := by
  cases t with
  | read offset count address =>
    -- a read writes nothing, whether it fails or not
    rw [Storage.after]
    split <;> exact hs
  | compute memory => exact hs
  | write offset count address =>
    rw [Storage.after, Storage.patch?, hs]
    cases hwrite : (opened limit f).write offset count s.memory address with
    | error fault => exact hs
    | ok file =>
      obtain ⟨-, rfl⟩ := write_eq_ok hwrite
      rfl

/-- The file after any transfers is the first content with all that has been written to it, in order. -/
theorem file_run (hs : s.file = opened limit f) (transfers : List Transfer) :
    (s.run transfers).file = opened limit ((s.patches transfers).foldl Patch.apply f) := by
  induction transfers generalizing s f with
  | nil => exact hs
  | cons t rest ih =>
    rw [Storage.patches, List.foldl_append]
    exact ih (file_after hs t)

/-- A patch that nothing was written over is still what the range holds. -/
theorem portion_patched {f : Bytes} {p : Patch} {ps : List Patch} {offset count : Int64}
    (hoffset : p.offset = offset.toInt.toNat) (hcount : p.data.length = count.toInt.toNat)
    (h : ∀ q ∈ ps, ∀ k, p.Covers k → ¬ q.Covers k) :
    portion (ps.foldl Patch.apply (p.apply f)) offset count = p.data := by
  have hend : p.offset + p.data.length ≤ (ps.foldl Patch.apply (p.apply f)).length := by
    have happly : (p.apply f).length = max f.length (p.offset + p.data.length) := length_splice _ _ _
    have hstretched := le_stretched (p.apply f).length ps
    rw [length_patched]
    omega
  -- byte by byte: the patch has left it, and none of the later ones covers it
  apply List.ext_getElem?
  intro i
  rw [portion, ← hoffset, ← hcount, List.getElem?_take]
  split
  next hi =>
    have hcovers : p.Covers (p.offset + i) := ⟨by omega, by omega⟩
    have hbyte : (ps.foldl Patch.apply (p.apply f)).getD (p.offset + i) 0 = p.data.getD i 0 := by
      rw [getD_patched, patched_of_not_covers fun q hq => h q hq _ hcovers, getD_apply, Patch.byteAfter,
        if_pos hcovers, Nat.add_sub_cancel_left]
    have hin : p.offset + i < (ps.foldl Patch.apply (p.apply f)).length := by omega
    rw [List.getD_eq_getElem?_getD, List.getD_eq_getElem?_getD, List.getElem?_eq_getElem hin,
      List.getElem?_eq_getElem hi, Option.getD_some, Option.getD_some] at hbyte
    rw [List.getElem?_drop, List.getElem?_eq_getElem hin, List.getElem?_eq_getElem hi, hbyte]
  next hi => rw [List.getElem?_eq_none (by omega)]

/-- What has been written is read again, as long as nothing is written over it. -/
theorem read_after_write (hs : s.file = opened limit f) {offset count source : Int64} {patch : Patch}
    (hcount : 0 < count.toInt) (hpatch : s.patch? (.write offset count source) = some patch)
    {later : List Transfer} {t : Storage} (ht : (s.after (.write offset count source)).run later = t)
    (hlater : ∀ p ∈ (s.after (.write offset count source)).patches later, ∀ k,
      patch.Covers k → ¬ p.Covers k) (target : Int64) :
    t.memory.Answers target count.toInt.toNat (t.file.read offset count t.memory target) fun answer =>
      answer.1 = count ∧ t.memory.Receives target.toInt.toNat
        (s.memory.bytesAt source.toInt.toNat count.toInt.toNat) answer.2 := by
  have hnow := file_run (file_after hs (.write offset count source)) later
  obtain ⟨⟨file, hfile⟩, hdata⟩ := patch?_write_eq_some hpatch
  rw [hs] at hfile
  have hoffset := (write_eq_ok hfile).1
  have hbytes : patch.data = s.memory.bytesAt source.toInt.toNat count.toInt.toNat := by rw [hdata]
  have hlength : patch.data.length = count.toInt.toNat := by rw [hbytes, Memory.length_bytesAt]
  have hplace : patch.offset = offset.toInt.toNat := by rw [hdata]
  have hportion := portion_patched (f := f) hplace hlength hlater
  have hread := read_of_portion limit hoffset hcount hportion hlength t.memory target
  rw [hpatch, ht] at hnow
  rw [hnow, ← hbytes]
  exact hread

end Runs

section Services

variable {p : Process} {machine : Machine} {offset count address : Int64}

theorem storage_readFile (h : Process.transferArgs machine p.memory = .ok (offset, count, address)) (i : Nat) :
    (p.readFile i machine).storage = p.storage.after (.read offset count address) := by
  rw [Process.readFile, h, Storage.after]
  change Process.storage (p.orLeave i (p.file.read offset count p.memory address) _) = _
  change _ = match p.file.read offset count p.memory address with
    | .ok (_, memory) => { p.storage with memory }
    | .error _ => p.storage
  cases p.file.read offset count p.memory address <;> rfl

theorem storage_writeFile (h : Process.transferArgs machine p.memory = .ok (offset, count, address)) (i : Nat) :
    (p.writeFile i machine).storage = p.storage.after (.write offset count address) := by
  rw [Process.writeFile, h, Storage.after]
  change Process.storage (p.orLeave i (p.file.write offset count p.memory address) _) = _
  change _ = match p.file.write offset count p.memory address with
    | .ok file => { p.storage with file }
    | .error _ => p.storage
  cases p.file.write offset count p.memory address <;> rfl

end Services

/-- Every open file is a flat array of bytes, for all operands, memories and sequences of transfers. -/
theorem flat_array (limit : Option FileLimit) (f : Bytes) : FlatArray limit f where
  write offset count m address hgranted := by
    have hanswer := write_answers hgranted
    split_ifs at hanswer ⊢ with hneg
    · exact hanswer
    · rw [Memory.Answers] at hanswer ⊢
      split_ifs at hanswer ⊢ with hcovers
      · obtain ⟨file, hfile, rfl⟩ := hanswer
        exact ⟨_, hfile, _, rfl, written_splice _ _ _⟩
      · exact hanswer
  granted offset count m address := granted_write f m address
  read := read_answers limit f
  served_read := storage_readFile
  served_write := storage_writeFile
  run m transfers :=
    ⟨_, file_run rfl transfers, length_patched _ _, getD_patched _ _⟩
  read_back m transfers offset count source later := by
    intro s t hcount patch hpatch hlater target
    exact read_after_write (file_run rfl transfers) hcount hpatch rfl hlater target

/-- A count that is not positive copies nothing, and a file that ends before the offset is filled up to it. The
address has to lie in the memory nevertheless. -/
theorem write_nothing (limit : Option FileLimit) (f : Bytes) {offset count : Int64} (m : Memory) (address : Int64)
    (hoffset : 0 ≤ offset.toInt) (hcount : count.toInt ≤ 0)
    (hgranted : Granted ((opened limit f).write offset count m address)) :
    (opened limit f).write offset count m address =
      if m.Covers address 0 then .ok (opened limit (f ++ List.replicate (offset.toInt.toNat - f.length) 0))
      else .error (.memoryRange address 0 m.size) := by
  have hnone : count.toInt.toNat = 0 := Int.toNat_of_nonpos hcount
  have hextended : splice f offset.toInt.toNat (m.bytesAt address.toInt.toNat 0) =
      f ++ List.replicate (offset.toInt.toNat - f.length) 0 := splice_nil f _
  have hanswer := write_answers hgranted
  rw [if_neg (by omega), Memory.Answers, hnone, hextended] at hanswer
  split_ifs at hanswer ⊢ with hcovers
  · obtain ⟨file, hfile, rfl⟩ := hanswer
    exact hfile
  · exact hanswer

/-- A file of two bytes grows to five, which is its limit, at the highest address that is allowed. -/
theorem write_nothing_atEndOfMemory :
    0 ≤ (5 : Int64).toInt ∧ (-3 : Int64).toInt ≤ 0 ∧
      Granted ((opened (some ⟨5, "full"⟩) [1, 2]).write 5 (-3) (Memory.zeros 4) 4) ∧
      (opened (some ⟨5, "full"⟩) [1, 2]).write 5 (-3) (Memory.zeros 4) 4 =
        .ok (opened (some ⟨5, "full"⟩) [1, 2, 0, 0, 0]) := by
  have hallows : FileLimit.Allows (some ⟨5, "full"⟩) ((5 : Int64).toInt.toNat + (-3 : Int64).toInt.toNat) := by
    intro l hl
    obtain rfl := Option.some.inj hl
    decide
  have hgranted := granted_write [1, 2] (Memory.zeros 4) 4 hallows
  have hwrite := write_nothing (some ⟨5, "full"⟩) [1, 2] (Memory.zeros 4) 4 (by decide) (by decide) hgranted
  exact ⟨by decide, by decide, hgranted, hwrite⟩

/-- An address outside the memory fails a write of nothing, although no byte is taken from there and the system
would refuse nothing. -/
theorem write_nothing_fails_belowMemory :
    ¬ ∀ (f : Bytes) (offset count : Int64) (m : Memory) (address : Int64), 0 ≤ offset.toInt → count.toInt ≤ 0 →
      Granted ((opened none f).write offset count m address) →
        (opened none f).write offset count m address =
          .ok (opened none (f ++ List.replicate (offset.toInt.toNat - f.length) 0)) := by
  intro h
  have hgranted : Granted ((opened none [1, 2]).write 5 0 (Memory.zeros 4) (-1)) :=
    granted_write [1, 2] (Memory.zeros 4) (-1) (fun l hl => by cases hl)
  have hok := h [1, 2] 5 0 (Memory.zeros 4) (-1) (by decide) (by decide) hgranted
  have herror : (opened none [1, 2]).write 5 0 (Memory.zeros 4) (-1) = .error (.memoryRange (-1) 0 4) := rfl
  rw [herror] at hok
  cases hok

end DataFile

end PrefixVM
